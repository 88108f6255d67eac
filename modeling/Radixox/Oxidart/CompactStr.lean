import Radixox.Lib.Blocks
import Radixox.Lib.LittleEndian
import Radixox.Lib.Runs
import Radixox.Oxidart.Value

/-!
# Compact strings

`compact_str.rs`: the compression of a node, up to seven bytes beside a tag byte, or a pointer to
a block of length and data. The tag is the first byte of both: odd in the inline form, the low
byte of an even pointer in the other. The rest of the development takes a compression for a list
of bytes; here the string is its storage, and `Keeps` says which list it stands for.
-/

namespace Radixox.Oxidart
set_option autoImplicit false
open Radixox.Blocks Runs

/-! ## The code -/

/-- `[u8; 8]`. -/
abbrev EightBytes := { l : Bytes // l.length = 8 }

/-- The union, with the form that was stored. -/
inductive Inner where
  | heap (ptr : UInt64)
  | inline (data : EightBytes)

/-- The blocks of the allocator. -/
abbrev ByteMemory := Memory UInt64 UInt8

structure CompactStr where
  inner : Inner

/-- What stops the code: a failed assertion, an access that memory does not allow. -/
inductive CompactStr.Fault where
  | null
  | outOfBounds
  | unreachable
deriving DecidableEq

/-- The eight bytes of the union, whatever was stored. -/
def Inner.bytes : Inner → Bytes
  | .heap ptr => LittleEndian.bytes 8 ptr.toNat
  | .inline data => data.1

/-- `inline[0]`. -/
def Inner.tag (inner : Inner) : UInt8 := inner.bytes.headD 0

/-- The `heap` field. -/
def Inner.ptr (inner : Inner) : UInt64 := UInt64.ofNat (LittleEndian.number inner.bytes)

/-- `dst[i..i + src.len()].copy_from_slice(src)`; a single byte is a slice of one. -/
def copyFromSlice (dst : EightBytes) (i : Nat) (src : Bytes) : Except CompactStr.Fault EightBytes :=
  match spliced : splice dst.1 i src with
  | some l => .ok ⟨l, (length_splice spliced).trans dst.2⟩
  | none => .error .outOfBounds

namespace CompactStr

def inlineCap : Nat := 7

def heapHeader : Nat := 4

/-- `((len as u8) << 1) | 1`. -/
def inlineTag (len : Nat) : UInt8 := (UInt8.ofNat len <<< 1) ||| 1

def zeros : EightBytes := ⟨List.replicate 8 0, rfl⟩

def new : CompactStr := ⟨.inline ⟨[1, 0, 0, 0, 0, 0, 0, 0], rfl⟩⟩

def deref (s : CompactStr) (mem : ByteMemory) : Except Fault Bytes :=
  let tag := s.inner.tag
  if tag &&& 1 = 1 then
    let len := (tag >>> 1).toNat
    if len ≤ 7 then .ok ((s.inner.bytes.drop 1).take len) else .error .unreachable
  else do
    let ptr := s.inner.ptr
    let len ← access .outOfBounds (load mem ptr 0 4)
    access .outOfBounds (load mem ptr heapHeader (LittleEndian.number len))

def drop (s : CompactStr) (mem : ByteMemory) : Except Fault ByteMemory :=
  if s.inner.tag &&& 1 = 0 then do
    let ptr := s.inner.ptr
    let len ← access .outOfBounds (load mem ptr 0 4)
    access .outOfBounds (release mem ptr (heapHeader + LittleEndian.number len))
  else .ok mem

/-- `from_slice`; `ptr` is the answer of the allocator, if it is asked. -/
def fromSlice (mem : ByteMemory) (data : Bytes) (ptr : UInt64) : Except Fault (CompactStr × ByteMemory) :=
  if data.length ≤ inlineCap then do
    let inner ← copyFromSlice zeros 0 [inlineTag data.length]
    let inner ← copyFromSlice inner 1 data
    return (⟨.inline inner⟩, mem)
  else if ptr = 0 then .error .null
  else do
    let mem := allocate mem ptr (heapHeader + data.length)
    let mem ← access .outOfBounds (store mem ptr 0 (LittleEndian.bytes 4 data.length))
    let mem ← access .outOfBounds (store mem ptr heapHeader data)
    return (⟨.heap ptr⟩, mem)

/-- The new string of `append_and_replace`. -/
def concat (mem : ByteMemory) (old : Bytes) (radix : UInt8) (suffix : Bytes) (ptr : UInt64) :
    Except Fault (CompactStr × ByteMemory) :=
  let newLen := old.length + 1 + suffix.length
  if newLen ≤ inlineCap then do
    let inner ← copyFromSlice zeros 0 [inlineTag newLen]
    let inner ← copyFromSlice inner 1 old
    let inner ← copyFromSlice inner (1 + old.length) [radix]
    let inner ← copyFromSlice inner (2 + old.length) suffix
    return (⟨.inline inner⟩, mem)
  else if ptr = 0 then .error .null
  else do
    let mem := allocate mem ptr (heapHeader + newLen)
    let mem ← access .outOfBounds (store mem ptr 0 (LittleEndian.bytes 4 newLen))
    let mem ← access .outOfBounds (store mem ptr heapHeader old)
    let mem ← access .outOfBounds (store mem ptr (heapHeader + old.length) [radix])
    let mem ← access .outOfBounds (store mem ptr (heapHeader + (old.length + 1)) suffix)
    return (⟨.heap ptr⟩, mem)

/-- The string before is dropped when the new one takes its place. -/
def appendAndReplace (s : CompactStr) (mem : ByteMemory) (radix : UInt8) (suffix : Bytes) (ptr : UInt64) :
    Except Fault (CompactStr × ByteMemory) := do
  let old ← s.deref mem
  let (new, mem) ← concat mem old radix suffix ptr
  let mem ← s.drop mem
  return (new, mem)

/-- One call of `append_and_replace`, with the answer of the allocator. -/
structure Append where
  radix : UInt8
  suffix : Bytes
  ptr : UInt64

def appendStep (st : CompactStr × ByteMemory) (a : Append) : Except Fault (Unit × CompactStr × ByteMemory) := do
  let st ← st.1.appendAndReplace st.2 a.radix a.suffix a.ptr
  return ((), st)

/-- A string from a slice, and appends to it. -/
def build (mem : ByteMemory) (data : Bytes) (ptr : UInt64) (appends : List Append) : Except Fault (CompactStr × ByteMemory) := do
  let st ← fromSlice mem data ptr
  let (_, st) ← run appendStep appends st
  return st

/-- What the string is meant to hold. -/
def appended (data : Bytes) (appends : List Append) : Bytes := appends.foldl (fun text a => text ++ a.radix :: a.suffix) data

/-- What the allocator promises: an even address, not null, that no live block has. -/
structure Granted (mem : ByteMemory) (ptr : UInt64) : Prop where
  nonnull : ptr ≠ 0
  even : ptr.toNat % 2 = 0
  free : mem ptr = none

instance (mem : ByteMemory) (ptr : UInt64) : Decidable (Granted mem ptr) :=
  decidable_of_iff (ptr ≠ 0 ∧ ptr.toNat % 2 = 0 ∧ (mem ptr).isNone = true)
    ⟨fun ⟨nonnull, even, free⟩ => ⟨nonnull, even, Option.isNone_iff_eq_none.1 free⟩,
      fun granted => ⟨granted.nonnull, granted.even, Option.isNone_iff_eq_none.2 granted.free⟩⟩

/-- The promise for an append to a text, if the allocator is asked. -/
def Serves (mem : ByteMemory) (a : Append) (old : Bytes) : Prop :=
  inlineCap < old.length + 1 + a.suffix.length → Granted mem a.ptr

instance (mem : ByteMemory) (a : Append) (old : Bytes) : Decidable (Serves mem a old) := inferInstanceAs (Decidable (_ → _))

def Served (st : CompactStr × ByteMemory) (a : Append) : Prop := ∀ old ∈ (st.1.deref st.2).toOption, Serves st.2 a old

instance (st : CompactStr × ByteMemory) (a : Append) : Decidable (Served st a) := Option.decidableForallMem _

/-! ## The tag byte -/

theorem tag_heap {ptr : UInt64} (even : ptr.toNat % 2 = 0) : (Inner.heap ptr).tag &&& 1 = 0 := by
  show UInt8.ofNat ptr.toNat &&& 1 = 0
  rw [← UInt8.toNat_inj, UInt8.toNat_and, UInt8.toNat_ofNat', UInt8.toNat_one, Nat.and_one_is_mod, UInt8.toNat_zero]
  omega

theorem ptr_heap (ptr : UInt64) : (Inner.heap ptr).ptr = ptr := by
  show UInt64.ofNat (LittleEndian.number (LittleEndian.bytes 8 ptr.toNat)) = ptr
  rw [LittleEndian.number_bytes 8 ptr.toNat_lt, UInt64.ofNat_toNat]

theorem inlineTag_eq {len : Nat} (short : len ≤ 7) : inlineTag len &&& 1 = 1 ∧ (inlineTag len >>> 1).toNat = len := by
  have all : ∀ n : Fin 8, inlineTag n &&& 1 = 1 ∧ (inlineTag n >>> 1).toNat = n := by decide
  exact all ⟨len, Nat.lt_succ_of_le short⟩

theorem tag_inline {data : EightBytes} {b : UInt8} {text : Bytes} (front : b :: text <+: data.1) : (Inner.inline data).tag = b := by
  obtain ⟨rest, bytes⟩ := front
  show data.1.headD 0 = b
  rw [← bytes]
  rfl

/-! ## What a string stands for -/

/-- The string stands for this text, in a memory that is `base` but for its block. -/
inductive Keeps (base : ByteMemory) : ByteMemory → CompactStr → Bytes → Prop where
  | inline {data : EightBytes} {text : Bytes} (short : text.length ≤ inlineCap)
      (front : inlineTag text.length :: text <+: data.1) : Keeps base base ⟨.inline data⟩ text
  | heap {ptr : UInt64} {c : List (Option UInt8)} {text : Bytes} (even : ptr.toNat % 2 = 0) (free : base ptr = none)
      (small : text.length < 2 ^ 32)
      (front : Front c (LittleEndian.bytes 4 text.length ++ text) (heapHeader + text.length)) :
      Keeps base (Function.update base ptr (some c)) ⟨.heap ptr⟩ text

theorem load_len {mem : ByteMemory} {ptr : UInt64} {c : List (Option UInt8)} {text : Bytes} {n : Nat} (here : mem ptr = some c)
    (front : Front c (LittleEndian.bytes 4 text.length ++ text) n) :
    load mem ptr 0 4 = some (LittleEndian.bytes 4 text.length) := by
  have header := load_all here front.dropLast
  rwa [LittleEndian.length_bytes] at header

theorem load_text {mem : ByteMemory} {ptr : UInt64} {c : List (Option UInt8)} {text : Bytes} {n : Nat} (here : mem ptr = some c)
    (front : Front c (LittleEndian.bytes 4 text.length ++ text) n) : load mem ptr heapHeader text.length = some text := by
  have read := load_front here front
  rwa [LittleEndian.length_bytes] at read

/-- Dropping a string frees its block, whatever else is there. -/
theorem drop_heap {mem : ByteMemory} {ptr : UInt64} {c : List (Option UInt8)} {text : Bytes} (here : mem ptr = some c)
    (even : ptr.toNat % 2 = 0) (small : text.length < 2 ^ 32)
    (front : Front c (LittleEndian.bytes 4 text.length ++ text) (heapHeader + text.length)) :
    (⟨.heap ptr⟩ : CompactStr).drop mem = .ok (Function.update mem ptr none) := by
  simp only [drop, tag_heap even, if_true, ptr_heap, load_len here front, access, bind, Except.bind, Option.elim,
    LittleEndian.number_bytes 4 small, release_front here front]

theorem drop_inline {mem : ByteMemory} {data : EightBytes} {text : Bytes} (short : text.length ≤ inlineCap)
    (front : inlineTag text.length :: text <+: data.1) : (⟨.inline data⟩ : CompactStr).drop mem = .ok mem := by
  have odd : (Inner.inline data).tag &&& 1 = 1 := (tag_inline front).symm ▸ (inlineTag_eq short).1
  rw [drop, if_neg]
  rw [odd]
  decide

namespace Keeps

variable {base mem : ByteMemory} {s : CompactStr} {text : Bytes}

theorem deref (keeps : Keeps base mem s text) : s.deref mem = .ok text := by
  cases keeps with
  | inline short front =>
    obtain ⟨odd, len⟩ := inlineTag_eq short
    have tag := tag_inline front
    obtain ⟨rest, bytes⟩ := front
    simp only [CompactStr.deref, tag, odd, if_true, len]
    rw [if_pos (show text.length ≤ 7 from short), Inner.bytes, ← bytes]
    exact congrArg Except.ok List.take_left
  | @heap ptr c _ even free small front =>
    have here : Function.update base ptr (some c) ptr = some c := Function.update_self ..
    simp only [CompactStr.deref, tag_heap even, ptr_heap, load_len here front, access, bind, Except.bind, Option.elim,
      LittleEndian.number_bytes 4 small, load_text here front]
    rw [if_neg (by decide)]

/-- The tag bit tells the form that is stored. -/
theorem tag_iff (keeps : Keeps base mem s text) : s.inner.tag &&& 1 = 1 ↔ ∃ data, s.inner = .inline data := by
  cases keeps with
  | inline short front => exact iff_of_true ((tag_inline front).symm ▸ (inlineTag_eq short).1) ⟨_, rfl⟩
  | heap even free small front =>
    rw [tag_heap even]
    exact iff_of_false (by decide) fun ⟨_, same⟩ => nomatch same

/-- Dropping leaves the memory as it was without the string. -/
theorem drop (keeps : Keeps base mem s text) : s.drop mem = .ok base := by
  cases keeps with
  | inline short front => exact drop_inline short front
  | heap even free small front =>
    rw [drop_heap (Function.update_self _ _ _) even small front, Function.update_idem, Function.update_eq_self_iff.2 free.symm]

end Keeps

/-! ## Building a string -/

/-- A copy that goes on where the written bytes end. -/
theorem copyFromSlice_front {dst : EightBytes} {front : Bytes} (i : Nat) (src : Bytes) (starts : front <+: dst.1) (at_ : i = front.length)
    (fits : i + src.length ≤ 8) : ∃ out, copyFromSlice dst i src = .ok out ∧ front ++ src <+: out.1 := by
  subst at_
  obtain ⟨rest, bytes⟩ := starts
  have length := dst.2
  rw [← bytes, List.length_append] at length
  have spliced := splice_front front (by omega : src.length ≤ rest.length)
  rw [bytes] at spliced
  unfold copyFromSlice
  split
  next l found => exact ⟨_, rfl, _, (Option.some.inj (found.symm.trans spliced)).symm⟩
  next missing => exact absurd (missing.symm.trans spliced) (Option.some_ne_none _).symm

/-- A write to a block that goes on where the written bytes end; the block stays where it is. -/
theorem access_store (base : ByteMemory) (ptr : UInt64) {c : List (Option UInt8)} {written : Bytes} {n : Nat} (i : Nat)
    (new : Bytes) (front : Front c written n) (at_ : i = written.length) (fits : i + new.length ≤ n) :
    ∃ c', access Fault.outOfBounds (store (Function.update base ptr (some c)) ptr i new) = .ok (Function.update base ptr (some c')) ∧
      Front c' (written ++ new) n := by
  subst at_
  have here : Function.update base ptr (some c) ptr = some c := Function.update_self ..
  obtain ⟨c', stored, front'⟩ := store_front here front fits
  rw [Function.update_idem] at stored
  exact ⟨c', by rw [stored]; rfl, front'⟩

theorem fromSlice_keeps {mem : ByteMemory} {data : Bytes} {ptr : UInt64} (small : data.length < 2 ^ 32)
    (granted : inlineCap < data.length → Granted mem ptr) :
    ∃ s mem', fromSlice mem data ptr = .ok (s, mem') ∧ Keeps mem mem' s data := by
  unfold fromSlice
  by_cases short : data.length ≤ inlineCap
  · rw [if_pos short]
    have seven : data.length ≤ 7 := short
    obtain ⟨first, tagged, front⟩ := copyFromSlice_front 0 [inlineTag data.length] (List.nil_prefix (l := zeros.1)) rfl (by simp)
    obtain ⟨second, copied, front⟩ := copyFromSlice_front 1 data front rfl (by omega)
    simp only [tagged, copied, bind, Except.bind]
    exact ⟨_, _, rfl, .inline short front⟩
  · obtain ⟨nonnull, even, free⟩ := granted (Nat.lt_of_not_le short)
    rw [if_neg short, if_neg nonnull]
    obtain ⟨c, headed, front⟩ := access_store mem ptr 0 (LittleEndian.bytes 4 data.length)
      (front_uninit (heapHeader + data.length)) rfl (by rw [LittleEndian.length_bytes, heapHeader]; omega)
    obtain ⟨c, copied, front⟩ := access_store mem ptr heapHeader data front rfl (Nat.le_refl _)
    simp only [allocate, headed, copied, bind, Except.bind]
    exact ⟨_, _, rfl, .heap even free small front⟩

theorem concat_keeps {mem : ByteMemory} {old suffix : Bytes} {radix : UInt8} {ptr : UInt64}
    (small : (old ++ radix :: suffix).length < 2 ^ 32)
    (granted : inlineCap < old.length + 1 + suffix.length → Granted mem ptr) :
    ∃ s mem', concat mem old radix suffix ptr = .ok (s, mem') ∧ Keeps mem mem' s (old ++ radix :: suffix) := by
  have length : (old ++ radix :: suffix).length = old.length + 1 + suffix.length := by
    rw [List.length_append, List.length_cons]
    omega
  unfold concat
  by_cases short : old.length + 1 + suffix.length ≤ inlineCap
  · simp only [if_pos short]
    have seven : old.length + 1 + suffix.length ≤ 7 := short
    obtain ⟨first, tagged, front⟩ :=
      copyFromSlice_front 0 [inlineTag (old.length + 1 + suffix.length)] (List.nil_prefix (l := zeros.1)) rfl (by simp)
    obtain ⟨second, copied, front⟩ := copyFromSlice_front 1 old front rfl (by omega)
    obtain ⟨third, joined, front⟩ := copyFromSlice_front (1 + old.length) [radix] front
      (by simp only [List.nil_append, List.singleton_append, List.length_cons]; omega) (by rw [List.length_singleton]; omega)
    obtain ⟨fourth, ended, front⟩ := copyFromSlice_front (2 + old.length) suffix front
      (by simp only [List.nil_append, List.singleton_append, List.length_append, List.length_cons, List.length_nil]; omega) (by omega)
    simp only [tagged, copied, joined, ended, bind, Except.bind]
    refine ⟨_, _, rfl, .inline (length ▸ short) ?_⟩
    rw [length]
    simpa using front
  · obtain ⟨nonnull, even, free⟩ := granted (Nat.lt_of_not_le short)
    simp only [if_neg short, if_neg nonnull]
    obtain ⟨c, headed, front⟩ :=
      access_store mem ptr 0 (LittleEndian.bytes 4 (old.length + 1 + suffix.length))
        (front_uninit (heapHeader + (old.length + 1 + suffix.length))) rfl (by rw [LittleEndian.length_bytes, heapHeader]; omega)
    obtain ⟨c, copied, front⟩ := access_store mem ptr heapHeader old front rfl (by omega)
    obtain ⟨c, joined, front⟩ := access_store mem ptr (heapHeader + old.length) [radix] front
      (by simp only [List.nil_append, List.length_append, LittleEndian.length_bytes, heapHeader]) (by rw [List.length_singleton]; omega)
    obtain ⟨c, ended, front⟩ := access_store mem ptr (heapHeader + (old.length + 1)) suffix front
      (by simp only [List.nil_append, List.length_append, LittleEndian.length_bytes, heapHeader, List.length_singleton]; omega) (by omega)
    simp only [allocate, headed, copied, joined, ended, bind, Except.bind]
    refine ⟨_, _, rfl, .heap even free small ?_⟩
    rw [length]
    simpa using front

/-- The new string takes the place of the old one, whose block is freed. -/
theorem Keeps.appendAndReplace {base mem : ByteMemory} {s : CompactStr} {old suffix : Bytes} {radix : UInt8} {ptr : UInt64}
    (keeps : Keeps base mem s old) (small : (old ++ radix :: suffix).length < 2 ^ 32)
    (granted : inlineCap < old.length + 1 + suffix.length → Granted mem ptr) :
    ∃ s' mem', s.appendAndReplace mem radix suffix ptr = .ok (s', mem') ∧ Keeps base mem' s' (old ++ radix :: suffix) := by
  obtain ⟨new, mem', joined, keeps'⟩ := concat_keeps small granted
  simp only [CompactStr.appendAndReplace, keeps.deref, joined, bind, Except.bind]
  cases keeps with
  | inline short front =>
    rw [drop_inline short front]
    exact ⟨_, _, rfl, keeps'⟩
  | @heap place c _ even free few front =>
    cases keeps' with
    | inline short front' =>
      rw [drop_heap (Function.update_self ..) even few front, Function.update_idem, Function.update_eq_self_iff.2 free.symm]
      exact ⟨_, _, rfl, .inline short front'⟩
    | @heap fresh c' _ even' free' few' front' =>
      -- The new block is not where the old one still is.
      have apart : place ≠ fresh := by
        rintro rfl
        rw [Function.update_self] at free'
        cases free'
      rw [Function.update_of_ne apart.symm] at free'
      have here : Function.update (Function.update base place (some c)) fresh (some c') place = some c := by
        rw [Function.update_of_ne apart, Function.update_self]
      rw [drop_heap here even few front, Function.update_comm apart.symm, Function.update_idem,
        (Function.update_eq_self_iff.2 free.symm : Function.update base place none = base)]
      exact ⟨_, _, rfl, .heap even' free' few' front'⟩

/-! ## Chains of appends -/

theorem appended_cons (data : Bytes) (a : Append) (rest : List Append) :
    appended data (a :: rest) = appended (data ++ a.radix :: a.suffix) rest := rfl

theorem length_le_appended (appends : List Append) : ∀ data : Bytes, data.length ≤ (appended data appends).length := by
  induction appends with
  | nil => exact fun data => Nat.le_refl _
  | cons a rest ih =>
    intro data
    have longer := ih (data ++ a.radix :: a.suffix)
    rw [List.length_append] at longer
    rw [appended_cons]
    omega

theorem run_keeps {base : ByteMemory} (appends : List Append) : ∀ {st : CompactStr × ByteMemory} {text : Bytes},
    Keeps base st.2 st.1 text → (appended text appends).length < 2 ^ 32 → Meets appendStep Served appends st →
    ∃ replies st', run appendStep appends st = .ok (replies, st') ∧ Keeps base st'.2 st'.1 (appended text appends) := by
  induction appends with
  | nil => exact fun keeps _ _ => ⟨_, _, rfl, keeps⟩
  | cons a rest ih =>
    intro st text keeps small served
    have fits : (text ++ a.radix :: a.suffix).length < 2 ^ 32 :=
      Nat.lt_of_le_of_lt (length_le_appended rest _) small
    obtain ⟨s', mem', taken, keeps'⟩ := keeps.appendAndReplace fits fun asks => served.1 text (by rw [keeps.deref]; rfl) asks
    have first : appendStep st a = .ok ((), s', mem') := by
      simp only [appendStep, taken, bind, Except.bind]
      rfl
    obtain ⟨replies, st', later, kept⟩ := ih keeps' small (served.next first)
    exact ⟨_, st', run_cons first later, kept⟩

/-- A string and any chain of appends to it read back as what was put in, the tag tells the form, and
dropping the string leaves nothing behind. -/
theorem build_reads_back (base : ByteMemory) (data : Bytes) (ptr : UInt64) (appends : List Append)
    (small : (appended data appends).length < 2 ^ 32)
    (granted : inlineCap < data.length → Granted base ptr)
    (served : ∀ st, fromSlice base data ptr = .ok st → Meets appendStep Served appends st) :
    ∃ s mem, build base data ptr appends = .ok (s, mem) ∧ s.deref mem = .ok (appended data appends) ∧
      (s.inner.tag &&& 1 = 1 ↔ ∃ inline, s.inner = .inline inline) ∧ s.drop mem = .ok base := by
  obtain ⟨s, mem, made, keeps⟩ := fromSlice_keeps (Nat.lt_of_le_of_lt (length_le_appended appends data) small) granted
  obtain ⟨replies, st, ran, kept⟩ := run_keeps appends keeps small (served _ made)
  refine ⟨st.1, st.2, ?_, kept.deref, kept.tag_iff, kept.drop⟩
  simp only [build, made, ran, bind, Except.bind]
  rfl

/-- Three bytes, then five with the radix inline, then past the limit, then from block to block. -/
theorem build_reads_back_crossing :
    ∃ s mem, build (fun _ => none) [1, 2, 3] 16 [⟨4, [5], 16⟩, ⟨6, [7, 8, 9], 32⟩, ⟨10, [], 16⟩] = .ok (s, mem) ∧
      s.deref mem = .ok [1, 2, 3, 4, 5, 6, 7, 8, 9, 10] ∧
      (s.inner.tag &&& 1 = 1 ↔ ∃ inline, s.inner = .inline inline) ∧ s.drop mem = .ok fun _ => none := by
  have served : ∀ st ∈ (fromSlice (fun _ => none) [1, 2, 3] 16).toOption,
      Meets appendStep Served [⟨4, [5], 16⟩, ⟨6, [7, 8, 9], 32⟩, ⟨10, [], 16⟩] st := by decide +kernel
  exact build_reads_back (fun _ => none) [1, 2, 3] 16 [⟨4, [5], 16⟩, ⟨6, [7, 8, 9], 32⟩, ⟨10, [], 16⟩] (by decide)
    (fun asks => absurd asks (by decide)) fun st made => served st (by rw [made]; rfl)

end CompactStr

end Radixox.Oxidart
