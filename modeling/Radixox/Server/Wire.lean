import Radixox.Lib.Decimal
import Radixox.Server.SharedFrame

/-!
# The reply stream

What a client of RESP2 makes of the bytes: `readFrame` reads one frame off the front, by the
grammar of the protocol. A frame whose lines hold no CR and no LF is read back as it was
encoded, whatever follows, so replies that are sent one after the other without a
separator can be told apart.
-/

namespace Radixox.Server
set_option autoImplicit false
open Radixox.Decimal

/-! ## What the encoder writes -/

/-- The digit buffer has room for every number below `10 ^ 20`. -/
theorem digitLoop_eq (places : Nat) : ∀ (n : Nat) (buf : SharedByte),
    digitLoop places n buf = if n < 10 ^ places then some (digits n ++ buf) else none := by
  induction places with
  | zero =>
    intro n buf
    cases n with
    | zero => simp [digitLoop, digits_zero]
    | succ n => simp [digitLoop]
  | succ places ih =>
    intro n buf
    cases n with
    | zero => simp [digitLoop, digits_zero]
    | succ n =>
      rw [digitLoop, ih, digits_of_ne_zero (Nat.succ_ne_zero n), List.append_assoc]
      have same : (n + 1) / 10 < 10 ^ places ↔ n + 1 < 10 ^ (places + 1) := by
        rw [Nat.div_lt_iff_lt_mul (by decide), Nat.pow_succ]
      simp only [same]
      rfl

theorem writeUsize_eq (dst : SharedByte) (n : Nat) :
    writeUsize dst n = if n < 10 ^ 20 then some (dst ++ text n) else none := by
  unfold writeUsize text
  by_cases zero : n = 0
  · subst zero
    simp
  · rw [if_neg zero, if_neg zero, digitLoop_eq, List.append_nil]
    split <;> rfl

/-- `i64::to_string`, as `write_i64` has it. -/
def integerText (n : Int64) : SharedByte := (if n.toInt < 0 then [45] else []) ++ text n.toInt.natAbs

theorem natAbs_int64_le (n : Int64) : n.toInt.natAbs ≤ 2 ^ 63 := by
  have low := Int64.le_toInt n
  have high := Int64.toInt_lt n
  omega

theorem writeI64_eq (dst : SharedByte) (n : Int64) : writeI64 dst n = some (dst ++ integerText n) := by
  have small : n.toInt.natAbs < 10 ^ 20 := Nat.lt_of_le_of_lt (natAbs_int64_le n) (by decide)
  unfold writeI64 integerText
  split
  · rw [writeUsize_eq, if_pos small, List.append_assoc]
  · rw [writeUsize_eq, if_pos small, List.nil_append]

mutual

/-- The bytes of a frame. -/
def SharedFrame.wire : SharedFrame → SharedByte
  | .simpleString s => 43 :: s ++ crlf
  | .error s => 45 :: s ++ crlf
  | .integer i => 58 :: integerText i ++ crlf
  | .bulkString b => 36 :: text b.length ++ crlf ++ (b ++ crlf)
  | .array frames => 42 :: text frames.length ++ crlf ++ wireAll frames
  | .null => 36 :: [45, 49] ++ crlf

def wireAll : List SharedFrame → SharedByte
  | [] => []
  | f :: rest => f.wire ++ wireAll rest

end

/-- A length that is written is appended in decimal. -/
theorem writeUsize_some {dst bytes : SharedByte} {n : Nat} (written : writeUsize dst n = some bytes) :
    bytes = dst ++ text n := by
  rw [writeUsize_eq] at written
  split at written
  · exact (Option.some.inj written).symm
  · cases written

mutual

theorem encodeFrame_wire {dst bytes : SharedByte} (frame : SharedFrame) (encoded : encodeFrame dst frame = some bytes) :
    bytes = dst ++ frame.wire := by
  cases frame with
  | simpleString s | error s | null =>
    obtain rfl := Option.some.inj encoded
    simp [SharedFrame.wire]
  | integer i =>
    rw [encodeFrame, writeI64_eq] at encoded
    obtain rfl := Option.some.inj encoded
    simp [SharedFrame.wire]
  | bulkString b =>
    obtain ⟨head, written, rest⟩ := Option.bind_eq_some_iff.1 encoded
    obtain rfl := writeUsize_some written
    obtain rfl := Option.some.inj rest
    simp [SharedFrame.wire]
  | array frames =>
    obtain ⟨head, written, rest⟩ := Option.bind_eq_some_iff.1 encoded
    obtain rfl := writeUsize_some written
    rw [encodeFrames_wire frames rest]
    simp [SharedFrame.wire]

theorem encodeFrames_wire {dst bytes : SharedByte} (frames : List SharedFrame) (encoded : encodeFrames dst frames = some bytes) :
    bytes = dst ++ wireAll frames := by
  cases frames with
  | nil =>
    obtain rfl := Option.some.inj encoded
    exact (List.append_nil _).symm
  | cons f rest =>
    obtain ⟨head, first, later⟩ := Option.bind_eq_some_iff.1 encoded
    rw [encodeFrames_wire rest later, encodeFrame_wire f first, wireAll, List.append_assoc]

end

theorem SharedFrame.wire_ne_nil (frame : SharedFrame) : frame.wire ≠ [] := by
  cases frame <;> simp [wire]

theorem length_le_wireAll (frames : List SharedFrame) : frames.length ≤ (wireAll frames).length := by
  induction frames with
  | nil => exact Nat.zero_le _
  | cons f rest ih =>
    have := List.length_pos_iff.2 f.wire_ne_nil
    rw [wireAll, List.length_append, List.length_cons]
    omega

mutual

/-- The lengths that the encoder writes are below `bound`. -/
def SharedFrame.Sized (bound : Nat) : SharedFrame → Prop
  | .bulkString b => b.length < bound
  | .array frames => frames.length < bound ∧ AllSized bound frames
  | _ => True

def AllSized (bound : Nat) : List SharedFrame → Prop
  | [] => True
  | f :: rest => f.Sized bound ∧ AllSized bound rest

end

mutual

/-- A frame whose lengths the digit buffer can hold is encoded. -/
theorem encodeFrame_of_sized {bound : Nat} (fits : bound ≤ 10 ^ 20) (dst : SharedByte) (frame : SharedFrame)
    (sized : frame.Sized bound) : encodeFrame dst frame = some (dst ++ frame.wire) := by
  cases frame with
  | simpleString s | error s | null => simp [encodeFrame, SharedFrame.wire]
  | integer i =>
    rw [encodeFrame, writeI64_eq]
    simp [SharedFrame.wire]
  | bulkString b =>
    rw [encodeFrame, writeUsize_eq, if_pos (Nat.lt_of_lt_of_le sized fits)]
    simp [SharedFrame.wire]
  | array frames =>
    rw [encodeFrame, writeUsize_eq, if_pos (Nat.lt_of_lt_of_le sized.1 fits)]
    exact (encodeFrames_of_sized fits _ frames sized.2).trans (by simp [SharedFrame.wire])

theorem encodeFrames_of_sized {bound : Nat} (fits : bound ≤ 10 ^ 20) (dst : SharedByte) (frames : List SharedFrame)
    (sized : AllSized bound frames) : encodeFrames dst frames = some (dst ++ wireAll frames) := by
  cases frames with
  | nil => exact congrArg some (List.append_nil dst).symm
  | cons f rest =>
    rw [encodeFrames, encodeFrame_of_sized fits dst f sized.1]
    exact (encodeFrames_of_sized fits _ rest sized.2).trans (by rw [wireAll, List.append_assoc])

end

mutual

/-- A length is at most that of the bytes. -/
theorem SharedFrame.sized_of_short {bound : Nat} (frame : SharedFrame) (short : frame.wire.length < bound) :
    frame.Sized bound := by
  cases frame with
  | simpleString s | error s | null | integer i => exact trivial
  | bulkString b =>
    simp only [SharedFrame.wire, List.length_append] at short
    show b.length < bound
    omega
  | array frames =>
    rw [SharedFrame.wire, List.length_append] at short
    have := length_le_wireAll frames
    exact ⟨by omega, allSized_of_short frames (by omega)⟩

theorem allSized_of_short {bound : Nat} (frames : List SharedFrame) (short : (wireAll frames).length < bound) :
    AllSized bound frames := by
  cases frames with
  | nil => exact trivial
  | cons f rest =>
    rw [wireAll, List.length_append] at short
    exact ⟨f.sized_of_short (by omega), allSized_of_short rest (by omega)⟩

end

/-- A frame whose bytes are fewer than the digit buffer can count is encoded. -/
theorem encodeFrame_of_short (dst : SharedByte) (frame : SharedFrame) (short : frame.wire.length < 10 ^ 20) :
    encodeFrame dst frame = some (dst ++ frame.wire) :=
  encodeFrame_of_sized le_rfl dst frame (frame.sized_of_short short)

/-! ## What a client reads -/

/-- A text that fits on a line. -/
def IsLine (s : SharedByte) : Prop := ∀ b ∈ s, b ≠ 13 ∧ b ≠ 10

instance (s : SharedByte) : Decidable (IsLine s) := List.decidableBAll _ s

/-- The line in front, up to CR LF; a line holds neither of the two. -/
def readLine : SharedByte → Option (SharedByte × SharedByte)
  | [] => none
  | b :: rest =>
    if b = 13 then if rest.head? = some 10 then some ([], rest.tail) else none
    else if b = 10 then none
    else (readLine rest).map fun p => (b :: p.1, p.2)

/-- A number with an optional minus sign. -/
def readSigned : SharedByte → Option Int
  | [] => none
  | b :: rest => if b = 45 then (read rest).map fun n : Nat => (-n : Int) else (read (b :: rest)).map fun n : Nat => (n : Int)

def readInteger (line : SharedByte) : Option Int64 :=
  (readSigned line).bind fun n => if -2 ^ 63 ≤ n ∧ n < 2 ^ 63 then some (Int64.ofInt n) else none

mutual

/-- One frame of RESP2 and what follows it. The fuel bounds the nesting. -/
def readFrame : Nat → SharedByte → Option (SharedFrame × SharedByte)
  | fuel + 1, tag :: bytes => do
    let (line, rest) ← readLine bytes
    if tag = 43 then return (.simpleString line, rest)
    else if tag = 45 then return (.error line, rest)
    else if tag = 58 then return (.integer (← readInteger line), rest)
    else if tag = 36 then
      if line = [45, 49] then return (.null, rest)
      else
        let n ← read line
        if (rest.drop n).take 2 = crlf then return (.bulkString (rest.take n), rest.drop (n + 2)) else none
    else if tag = 42 then
      if line = [45, 49] then return (.null, rest)
      else
        let (frames, rest) ← readFrames fuel (← read line) rest
        return (.array frames, rest)
    else none
  | _, _ => none

/-- As many frames as an array announces. -/
def readFrames : Nat → Nat → SharedByte → Option (List SharedFrame × SharedByte)
  | _, 0, bytes => some ([], bytes)
  | fuel + 1, n + 1, bytes => do
    let (f, rest) ← readFrame fuel bytes
    let (frames, rest) ← readFrames fuel n rest
    return (f :: frames, rest)
  | 0, _ + 1, _ => none

end

/-! ## Reading back -/

theorem readLine_append {line : SharedByte} (clean : IsLine line) (rest : SharedByte) :
    readLine (line ++ crlf ++ rest) = some (line, rest) := by
  induction line with
  | nil => rfl
  | cons b line ih =>
    obtain ⟨notCr, notLf⟩ := clean b List.mem_cons_self
    have later := ih fun c member => clean c (List.mem_cons_of_mem b member)
    simp only [List.cons_append, readLine, if_neg notCr, if_neg notLf]
    rw [later]
    rfl

/-- What is read is a line, and the rest begins behind its end. -/
theorem eq_append_of_readLine {bytes : SharedByte} : ∀ {line rest : SharedByte}, readLine bytes = some (line, rest) →
    bytes = line ++ crlf ++ rest ∧ IsLine line := by
  induction bytes with
  | nil =>
    intro line rest found
    cases found
  | cons b bytes ih =>
    intro line rest found
    rw [readLine] at found
    split at found
    next cr =>
      split at found
      next lf =>
        obtain ⟨rfl, rfl⟩ := Prod.mk.inj (Option.some.inj found)
        obtain ⟨more, rfl⟩ := List.head?_eq_some_iff.1 lf
        exact ⟨by rw [cr]; rfl, fun c member => absurd member List.not_mem_nil⟩
      next => cases found
    next notCr =>
      split at found
      next => cases found
      next notLf =>
        obtain ⟨⟨l, r⟩, later, same⟩ := Option.map_eq_some_iff.1 found
        obtain ⟨rfl, rfl⟩ := Prod.mk.inj same
        obtain ⟨whole, clean⟩ := ih later
        refine ⟨by rw [whole]; rfl, fun c member => ?_⟩
        rcases List.mem_cons.1 member with rfl | inside
        · exact ⟨notCr, notLf⟩
        · exact clean c inside

theorem isLine_iff {s : SharedByte} : IsLine s ↔ 13 ∉ s ∧ 10 ∉ s := by
  constructor
  · exact fun clean => ⟨fun member => (clean 13 member).1 rfl, fun member => (clean 10 member).2 rfl⟩
  · rintro ⟨cr, lf⟩ b member
    constructor
    · rintro rfl
      exact cr member
    · rintro rfl
      exact lf member

theorem isLine_append {a b : SharedByte} : IsLine (a ++ b) ↔ IsLine a ∧ IsLine b := by
  simp only [IsLine, List.forall_mem_append]

theorem isLine_of_digits {s : SharedByte} (all : ∀ b ∈ s, IsDigit b) : IsLine s := by
  intro b member
  obtain ⟨low, -⟩ := all b member
  constructor
  · rintro rfl
    exact absurd low (by decide)
  · rintro rfl
    exact absurd low (by decide)

theorem isLine_text (n : Nat) : IsLine (text n) := isLine_of_digits fun _ => isDigit_of_mem_text

theorem isLine_integerText (n : Int64) : IsLine (integerText n) := by
  intro b member
  rcases List.mem_append.1 member with sign | number
  · split at sign
    · obtain rfl := List.mem_singleton.1 sign
      decide
    · cases sign
  · exact isLine_text _ b number

/-- A length is no `-1`. -/
theorem text_ne_minusOne (n : Nat) : text n ≠ [45, 49] := by
  intro same
  have first : IsDigit 45 := isDigit_of_mem_text (n := n) (same ▸ List.mem_cons_self)
  exact absurd first (by decide)

theorem readSigned_integerText (n : Int64) : readSigned (integerText n) = some n.toInt := by
  unfold integerText
  by_cases negative : n.toInt < 0
  · rw [if_pos negative, List.singleton_append, readSigned, if_pos rfl, read_text, Option.map_some]
    congr 1
    omega
  · obtain ⟨b, rest, written, digit⟩ := exists_text_eq_cons n.toInt.natAbs
    have notSign : b ≠ 45 := by
      rintro rfl
      exact absurd digit (by decide)
    rw [if_neg negative, List.nil_append, written, readSigned, if_neg notSign, ← written, read_text, Option.map_some]
    congr 1
    omega

theorem readInteger_integerText (n : Int64) : readInteger (integerText n) = some n := by
  rw [readInteger, readSigned_integerText, Option.bind_some, if_pos ⟨Int64.le_toInt n, Int64.toInt_lt n⟩, Int64.ofInt_toInt]

mutual

/-- Simple strings and errors are lines, at any depth. -/
def SharedFrame.Clean : SharedFrame → Prop
  | .simpleString s | .error s => IsLine s
  | .array frames => AllClean frames
  | .integer _ | .bulkString _ | .null => True

def AllClean : List SharedFrame → Prop
  | [] => True
  | f :: rest => f.Clean ∧ AllClean rest

end

mutual

/-- The fuel that a frame takes. -/
def SharedFrame.depth : SharedFrame → Nat
  | .array frames => depthAll frames + 1
  | _ => 1

def depthAll : List SharedFrame → Nat
  | [] => 0
  | f :: rest => f.depth + depthAll rest + 1

end

mutual

/-- A clean frame is read back, and the reader stops behind it. -/
theorem readFrame_wire (frame : SharedFrame) (clean : frame.Clean) (rest : SharedByte) :
    ∀ fuel, frame.depth ≤ fuel → readFrame fuel (frame.wire ++ rest) = some (frame, rest) := by
  intro fuel enough
  cases fuel with
  | zero => cases frame <;> simp [SharedFrame.depth] at enough
  | succ fuel =>
    cases frame with
    | simpleString s =>
      rw [SharedFrame.wire, List.cons_append, List.cons_append, readFrame, readLine_append clean]
      rfl
    | error s =>
      rw [SharedFrame.wire, List.cons_append, List.cons_append, readFrame, readLine_append clean]
      rfl
    | integer i =>
      rw [SharedFrame.wire, List.cons_append, List.cons_append, readFrame, readLine_append (isLine_integerText i)]
      simp [readInteger_integerText]
    | bulkString b =>
      rw [SharedFrame.wire, List.append_assoc, List.cons_append, List.cons_append, readFrame,
        readLine_append (isLine_text b.length)]
      simp [text_ne_minusOne, read_text, crlf]
    | array frames =>
      rw [SharedFrame.wire, List.append_assoc, List.cons_append, List.cons_append, readFrame,
        readLine_append (isLine_text frames.length)]
      have inner := readFrames_wire frames clean rest fuel (Nat.le_of_succ_le_succ enough)
      simp [text_ne_minusOne, read_text, inner]
    | null => rfl

theorem readFrames_wire (frames : List SharedFrame) (clean : AllClean frames) (rest : SharedByte) :
    ∀ fuel, depthAll frames ≤ fuel → readFrames fuel frames.length (wireAll frames ++ rest) = some (frames, rest) := by
  intro fuel enough
  cases frames with
  | nil => rw [List.length_nil, readFrames]; rfl
  | cons f others =>
    cases fuel with
    | zero => simp [depthAll] at enough
    | succ fuel =>
      rw [depthAll] at enough
      have first := readFrame_wire f clean.1 (wireAll others ++ rest) fuel (by omega)
      have later := readFrames_wire others clean.2 rest fuel (by omega)
      rw [wireAll, List.append_assoc, List.length_cons, readFrames, first]
      simp [later]

end

/-! ## Streams -/

/-- If one stream of clean frames begins another, so do its frames. -/
theorem wireAll_prefix {fs : List SharedFrame} : ∀ {gs : List SharedFrame}, AllClean fs → AllClean gs →
    wireAll fs <+: wireAll gs → fs <+: gs := by
  induction fs with
  | nil => exact fun _ _ _ => List.nil_prefix
  | cons f fs ih =>
    intro gs cleanF cleanG begins
    obtain ⟨more, same⟩ := begins
    cases gs with
    | nil =>
      rw [wireAll, wireAll, List.append_assoc, List.append_eq_nil_iff] at same
      exact absurd same.1 f.wire_ne_nil
    | cons g gs =>
      rw [wireAll, wireAll, List.append_assoc] at same
      have readF := readFrame_wire f cleanF.1 (wireAll fs ++ more) (f.depth + g.depth) (Nat.le_add_right _ _)
      have readG := readFrame_wire g cleanG.1 (wireAll gs) (f.depth + g.depth) (Nat.le_add_left _ _)
      rw [same, readG] at readF
      obtain ⟨rfl, others⟩ := Prod.mk.inj (Option.some.inj readF)
      exact (List.prefix_cons_inj g).2 (ih cleanF.2 cleanG.2 ⟨more, others.symm⟩)

/-- The reply encoding is uniquely decodable: streams of clean frames that agree, or one of which begins the other, come
from the same frames, as far as both go. -/
theorem encodeFrames_decodable {fs gs : List SharedFrame} {a b : SharedByte} (cleanF : AllClean fs) (cleanG : AllClean gs)
    (encodedF : encodeFrames [] fs = some a) (encodedG : encodeFrames [] gs = some b) :
    (a = b → fs = gs) ∧ (a <+: b → fs <+: gs) ∧ (b <+: a → gs <+: fs) := by
  obtain rfl : a = wireAll fs := encodeFrames_wire fs encodedF
  obtain rfl : b = wireAll gs := encodeFrames_wire gs encodedG
  refine ⟨fun same => ?_, wireAll_prefix cleanF cleanG, wireAll_prefix cleanG cleanF⟩
  have forth := wireAll_prefix cleanF cleanG (same ▸ List.prefix_refl _)
  have back := wireAll_prefix cleanG cleanF (same ▸ List.prefix_refl _)
  exact forth.eq_of_length_le back.length_le

/-- An array with a null and the least integer, before an empty string. -/
theorem encodeFrames_decodable_nested : ∃ a b,
    encodeFrames [] [.array [.null, .integer Int64.minValue], .bulkString []] = some a ∧
    encodeFrames [] [.array [.null, .integer Int64.minValue], .bulkString [], .simpleString [79, 75]] = some b ∧
    ((a = b → [SharedFrame.array [.null, .integer Int64.minValue], .bulkString []] =
        [.array [.null, .integer Int64.minValue], .bulkString [], .simpleString [79, 75]]) ∧
      (a <+: b → [SharedFrame.array [.null, .integer Int64.minValue], .bulkString []] <+:
        [.array [.null, .integer Int64.minValue], .bulkString [], .simpleString [79, 75]]) ∧
      (b <+: a → [SharedFrame.array [.null, .integer Int64.minValue], .bulkString [], .simpleString [79, 75]] <+:
        [.array [.null, .integer Int64.minValue], .bulkString []])) := by
  have cleanF : AllClean [.array [.null, .integer Int64.minValue], .bulkString []] := by
    simp [AllClean, SharedFrame.Clean]
  have cleanG : AllClean [.array [.null, .integer Int64.minValue], .bulkString [], .simpleString [79, 75]] := by
    simp [AllClean, SharedFrame.Clean, IsLine]
  exact ⟨_, _, rfl, rfl, encodeFrames_decodable cleanF cleanG rfl rfl⟩

end Radixox.Server
