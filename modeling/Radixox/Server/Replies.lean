import Radixox.Lib.Outcomes
import Radixox.Server.Keys
import Radixox.Server.Sessions
import Radixox.Server.Unlink
import Radixox.Server.Wire

/-!
# Replies of a connection in the normal state

What `dispatch` sends there, for every command but the two that answer with a frame for
each channel. All frames are put together from constants, numbers and bulk strings, except the one for
an unknown command: it holds the name that the client sent.
-/

namespace Radixox.Server.Resp
set_option autoImplicit false

open Radixox.Oxidart Radixox.Outcomes

/-! ## The handlers -/

/-- What the awaits of an asynchronous handler give. The world holds whatever the other tasks change in between. -/
structure Awaits (τ : Type) where
  getn : τ → SharedByte → Exec (List SharedByte × τ)
  deln : τ → SharedByte → Exec (Nat × τ)

section Handlers

variable {P : Policy} {S : Type} [Score S] {σ τ : Type}

/-- `handle_keys`. -/
def keysWith (new : SharedByte → Option (Dfa σ)) (getn : SharedByte → Exec (List SharedByte)) (args : List SharedByte)
    (st : OxidArt P (Value S)) : Exec SharedFrame :=
  match args with
  | [] => do return bulks (← getn [])
  | pattern :: _ =>
    if isSimplePrefix pattern then do return bulks (← getn (keysPrefix pattern))
    else do
      match ← st.getnRegex new (globToRegex pattern) with
      | .ok pairs => return bulks (pairs.map Prod.fst)
      | .error _ => return .error (ascii "ERR invalid pattern")

/-- The loop of `handle_unlink`. -/
def unlinkWith (deln : τ → SharedByte → Exec (Nat × τ)) (count : Nat) : List SharedByte → τ → Exec (Nat × τ)
  | [], world => .ok (count, world)
  | arg :: rest, world => do
    let (n, world) ← deln world (unlinkPrefix arg)
    unlinkWith deln (count + n) rest world

def AsyncFn.reply (new : SharedByte → Option (Dfa σ)) (awaits : Awaits τ) (world : τ) (args : List SharedByte)
    (st : OxidArt P (Value S)) : AsyncFn → Exec SharedFrame
  | .cmdKeys => keysWith new (fun p => (awaits.getn world p).map Prod.fst) args st
  | .cmdUnlink => (unlinkWith awaits.deln 0 args world).map fun p => integer p.1

/-- No other task runs. -/
def Awaits.alone : Awaits (OxidArt P (Value S)) where
  getn st pfx := (st.getnAsync YIELD_BUDGET pfx).map fun keys => (keys, st)
  deln st pfx := st.delnAsync YIELD_BUDGET pfx

theorem unlinkWith_alone (args : List SharedByte) : ∀ (count : Nat) (st : OxidArt P (Value S)),
    unlinkWith Awaits.alone.deln count args st = unlinkFrom count args st := by
  induction args with
  | nil => exact fun _ _ => rfl
  | cons arg rest ih =>
    intro count st
    simp only [unlinkWith, unlinkFrom, ih]
    rfl

/-- Then the handlers are those of a task that is never interrupted. -/
theorem reply_alone (new : SharedByte → Option (Dfa σ)) (args : List SharedByte) (st : OxidArt P (Value S)) :
    AsyncFn.reply new .alone st args st .cmdKeys = handleKeys new args st ∧
      AsyncFn.reply new .alone st args st .cmdUnlink = (handleUnlink args st).map Prod.fst := by
  constructor
  · have same : (fun pfx => ((Awaits.alone (P := P) (S := S)).getn st pfx).map Prod.fst) = st.getnAsync YIELD_BUDGET := by
      funext pfx
      simp only [Awaits.alone]
      cases st.getnAsync YIELD_BUDGET pfx <;> rfl
    rw [AsyncFn.reply, same]
    rfl
  · rw [AsyncFn.reply, unlinkWith_alone, handleUnlink, answer]
    cases unlinkFrom 0 args st <;> rfl

/-- What ends a command without a reply. -/
inductive Crash where
  | fault (f : Fault)
  | panic (p : Panic)

def orCrash {α : Type} : Exec α → Except Crash α := Except.mapError .panic

/-- What `dispatch` sends in the normal state. `SUBSCRIBE` has no reply of its own: it answers with a frame for each
channel. -/
def normalReply (lib : Library S) (new : SharedByte → Option (Dfa σ)) (awaits : Awaits τ) (world : τ) (reg : SubRegistry)
    (cmd : SharedByte) (args : List SharedByte) (st : OxidArt P (Value S)) : Except Crash (Option SharedFrame) :=
  match getHandler cmd with
  | some .subscribe => .ok none
  | some .publish => ((reg.publishEncode args).mapError .fault).map fun p => some p.1.1
  | some .ping => .ok (some respPong)
  | some .quit => .ok (some respOk)
  | some .unsubscribe => .error (.fault .stateSensitive)
  | some .static => .ok (some respOk)
  | some .args => .ok (some (cmdEcho args))
  | some (.data f) => (orCrash (f.run lib args st)).map fun p => some p.1
  | some (.dataOnly .cmdDbsize) => (orCrash (cmdDbsize st)).map fun p => some p.1
  | some (.dataOnly .cmdFlushdb) => (orCrash (cmdFlushdb st)).map fun p => some p.1
  | some (.async f) => (orCrash (f.reply new awaits world args st)).map some
  | none => .ok (some (.error (System.unknownCommand cmd)))

end Handlers

/-! ## The name in the reply -/

theorem toAsciiUppercase_eq_iff {b c : UInt8} (early : c < 65) : toAsciiUppercase b = c ↔ b = c := by
  unfold toAsciiUppercase
  rw [UInt8.lt_iff_toNat_lt] at early
  split
  next lower =>
    rw [UInt8.le_iff_toNat_le, UInt8.le_iff_toNat_le] at lower
    have shifted : (b - 32).toNat = b.toNat - 32 := UInt8.toNat_sub_of_le _ _ (UInt8.le_iff_toNat_le.2 (by
      have : (32 : UInt8).toNat = 32 := rfl
      have : (97 : UInt8).toNat = 97 := rfl
      omega))
    have : (97 : UInt8).toNat = 97 := rfl
    have : (65 : UInt8).toNat = 65 := rfl
    constructor
    · rintro rfl
      omega
    · rintro rfl
      omega
  next => exact Iff.rfl

theorem isLine_toUppercase (cmd : SharedByte) : IsLine (toUppercase cmd) ↔ IsLine cmd := by
  simp only [IsLine, toUppercase, List.forall_mem_map, ne_eq, toAsciiUppercase_eq_iff (show (13 : UInt8) < 65 by decide),
    toAsciiUppercase_eq_iff (show (10 : UInt8) < 65 by decide)]

/-- A character that is more than one byte has no ASCII byte. -/
theorem utf8Follow_high {b : UInt8} {ranges : List (UInt8 × UInt8)} (follow : utf8Follow b = some ranges) :
    (∀ r ∈ ranges, 0x80 ≤ r.1) ∧ (ranges ≠ [] → 0x80 ≤ b) := by
  unfold utf8Follow at follow
  dsimp only at follow
  split at follow
  next =>
    obtain rfl := Option.some.inj follow
    exact ⟨fun r member => absurd member List.not_mem_nil, fun more => absurd rfl more⟩
  next high =>
    refine ⟨?_, fun _ => UInt8.not_lt.1 high⟩
    repeat' split at follow
    all_goals
      cases follow
      try simp only [List.forall_mem_cons, List.not_mem_nil, false_imp_iff, implies_true, and_true]
    all_goals decide

theorem utf8Matched_high (ranges : List (UInt8 × UInt8)) : ∀ {bytes : SharedByte}, (∀ r ∈ ranges, 0x80 ≤ r.1) →
    ∀ b ∈ bytes.take (utf8Matched ranges bytes), 0x80 ≤ b := by
  induction ranges with
  | nil =>
    intro bytes _ b member
    rw [utf8Matched, List.take_zero] at member
    · cases member
    · intro low high ranges _ _ same
      cases same
  | cons r ranges ih =>
    intro bytes high b member
    obtain ⟨low, top⟩ := r
    cases bytes with
    | nil => cases member
    | cons c rest =>
      rw [utf8Matched] at member
      split at member
      next inside =>
        rcases List.mem_cons.1 member with rfl | later
        · exact UInt8.le_trans (high _ List.mem_cons_self) inside.1
        · exact ih (fun r member => high r (List.mem_cons_of_mem _ member)) b later
      next => cases member

/-- The decoder touches no ASCII byte. -/
theorem mem_fromUtf8Lossy_iff {c : UInt8} (low : c < 0x80) (bytes : SharedByte) : c ∈ fromUtf8Lossy bytes ↔ c ∈ bytes := by
  have not_high : ∀ {b : UInt8}, 0x80 ≤ b → c ≠ b := by
    rintro b high rfl
    exact absurd low (UInt8.not_lt.2 high)
  have replaced : c ∉ ([0xEF, 0xBF, 0xBD] : SharedByte) := by
    intro member
    simp only [List.mem_cons, List.not_mem_nil, or_false] at member
    rcases member with rfl | rfl | rfl <;> exact absurd low (by decide)
  have loop : ∀ (fuel : Nat) (bytes : SharedByte), bytes.length ≤ fuel → (c ∈ fromUtf8Lossy.loop fuel bytes ↔ c ∈ bytes) := by
    intro fuel
    induction fuel with
    | zero =>
      intro bytes enough
      rw [List.eq_nil_of_length_eq_zero (Nat.le_zero.1 enough)]
      exact Iff.rfl
    | succ fuel ih =>
      intro bytes enough
      cases bytes with
      | nil => exact Iff.rfl
      | cons b rest =>
        rw [List.length_cons] at enough
        rw [fromUtf8Lossy.loop, List.mem_cons]
        split
        next invalid =>
          have other : c ≠ b := by
            rintro rfl
            simp [utf8Follow, low] at invalid
          rw [List.mem_append, ih rest (by omega)]
          simp only [replaced, other, false_or]
        next ranges follow =>
          obtain ⟨highs, first⟩ := utf8Follow_high follow
          have matched : ∀ b ∈ rest.take (utf8Matched ranges rest), 0x80 ≤ b := utf8Matched_high ranges highs
          have none' : c ∉ rest.take (utf8Matched ranges rest) := fun member => not_high (matched c member) rfl
          have tail : c ∈ rest ↔ c ∈ rest.drop (utf8Matched ranges rest) := by
            conv_lhs => rw [← List.take_append_drop (utf8Matched ranges rest) rest, List.mem_append]
            simp only [none', false_or]
          rw [tail, List.mem_append, ih _ (by rw [List.length_drop]; omega)]
          split
          next => simp only [List.mem_cons, none', or_false]
          next short =>
            have several : ranges ≠ [] := by
              rintro rfl
              exact short rfl
            have other : c ≠ b := not_high (first several)
            simp only [replaced, other, false_or]
  exact loop bytes.length bytes (Nat.le_refl _)

/-- A text whose characters are no line end. -/
theorem isLine_text {text : List Char} (clean : decide (IsLine (text.map fun c => UInt8.ofNat c.toNat)) = true) :
    IsLine (ascii (String.ofList text)) := by
  rw [ascii, String.toList_ofList]
  exact of_decide_eq_true clean

theorem isLine_unknownCommand (cmd : SharedByte) : IsLine (System.unknownCommand cmd) ↔ IsLine cmd := by
  have front : IsLine (ascii "ERR unknown command '") := isLine_text rfl
  have back : IsLine (ascii "'") := isLine_text rfl
  have name : IsLine (fromUtf8Lossy cmd) ↔ IsLine cmd := by
    rw [isLine_iff, isLine_iff, mem_fromUtf8Lossy_iff (by decide), mem_fromUtf8Lossy_iff (by decide)]
  rw [System.unknownCommand, isLine_append, isLine_append, name]
  exact ⟨fun whole => whole.1.2, fun clean => ⟨⟨front, clean⟩, back⟩⟩

/-- The names of the table have no line end. -/
theorem isLine_of_getHandler {cmd : SharedByte} {h : Handler} (known : getHandler cmd = some h) : IsLine cmd := by
  obtain ⟨arm, found, -⟩ := Option.map_eq_some_iff.1 known
  have names : ∀ arm ∈ handlers, IsLine (ascii arm.1) := by decide +kernel
  have same : ascii arm.1 = cmd := by simpa using List.find?_some found
  exact same ▸ names arm (List.mem_of_find?_eq_some found)

/-! ## Frames without a line end -/

section Clean

variable {P : Policy} {S : Type} [Score S] {α ε : Type}

/-- What a handler answers can be framed. -/
def CleanReply : Answer P S → Prop := Returns fun p => p.1.Clean

theorem allClean_map {frame : α → SharedFrame} (clean : ∀ a, (frame a).Clean) (l : List α) : AllClean (l.map frame) := by
  induction l with
  | nil => trivial
  | cons a l ih => exact ⟨clean a, ih⟩

theorem clean_bulkOrNull (b : Option SharedByte) : (bulkOrNull b).Clean := by
  cases b <;> trivial

theorem clean_bulkString (b : SharedByte) : (SharedFrame.bulkString b).Clean := trivial

theorem clean_bulks (l : List SharedByte) : (bulks l).Clean := allClean_map clean_bulkString l

theorem clean_respOk : respOk.Clean := isLine_text rfl

theorem ascii_append (a b : String) : ascii (a ++ b) = ascii a ++ ascii b := by
  rw [ascii, String.toList_append, List.map_append]
  rfl

theorem clean_wrongArgs {name : String} (line : IsLine (ascii name)) : (wrongArgs name).Clean := by
  have front : IsLine (ascii "ERR wrong number of arguments for '") := isLine_text rfl
  have back : IsLine (ascii "' command") := isLine_text rfl
  show IsLine (ascii _)
  rw [ascii_append, ascii_append, isLine_append, isLine_append]
  exact ⟨⟨front, line⟩, back⟩

theorem isLine_redisTypeStr (t : RedisType) : IsLine (ascii (redisTypeStr t)) := by
  cases t <;> exact isLine_text rfl

theorem clean_wrongTypeGot {expected : String} (line : IsLine (ascii expected)) (got : RedisType) :
    (wrongTypeGot expected got).Clean := by
  have front : IsLine (ascii "WRONGTYPE Operation against a key holding the wrong kind of value (expected ") := isLine_text rfl
  have middle : IsLine (ascii ", got ") := isLine_text rfl
  have back : IsLine (ascii ")") := isLine_text rfl
  show IsLine (ascii _)
  simp only [ascii_append, isLine_append]
  exact ⟨⟨⟨⟨front, line⟩, middle⟩, isLine_redisTypeStr got⟩, back⟩

theorem clean_wrongType : wrongType.Clean := isLine_text rfl

theorem clean_internalError : internalError.Clean := isLine_text rfl

theorem clean_notAnInteger : notAnInteger.Clean := isLine_text rfl

theorem clean_notAFloat : notAFloat.Clean := isLine_text rfl

theorem clean_syntaxError : syntaxError.Clean := isLine_text rfl

theorem clean_counterErr (e : IntError) : (counterErr e).Clean := by
  cases e with
  | notAnInteger => exact clean_notAnInteger
  | overflow => exact isLine_text rfl

/-! ## The shapes of the handlers -/

theorem CleanReply.ok {frame : SharedFrame} {st : OxidArt P (Value S)} (clean : frame.Clean) : CleanReply (.ok (frame, st)) :=
  clean

theorem CleanReply.wrongArgs {name : String} {st : OxidArt P (Value S)} (line : IsLine (ascii name)) :
    CleanReply (.ok (Resp.wrongArgs name, st)) := clean_wrongArgs line

theorem answer_clean {frame : α → SharedFrame} (clean : ∀ a, (frame a).Clean) (run : Exec (α × OxidArt P (Value S))) :
    CleanReply (answer frame run) := (returns_self run).map fun p _ => clean p.1

theorem orInternal_clean {frame : α → SharedFrame} (clean : ∀ a, (frame a).Clean)
    (run : Exec (Except TypeError α × OxidArt P (Value S))) : CleanReply (answer (orInternal frame) run) := by
  refine answer_clean (fun res => ?_) run
  rcases res with (_ | _) | a
  · exact clean_wrongType
  · exact clean_internalError
  · exact clean a

theorem orWrongType_clean {frame : α → SharedFrame} (clean : ∀ a, (frame a).Clean)
    (run : Exec (Except ε α × OxidArt P (Value S))) : CleanReply (answer (orWrongType frame) run) := by
  refine answer_clean (fun res => ?_) run
  rcases res with _ | a
  · exact clean_wrongType
  · exact clean a

theorem orExpected_clean {expected : String} (line : IsLine (ascii expected)) {frame : α → SharedFrame}
    (clean : ∀ a, (frame a).Clean) (run : Exec (Except RedisType α × OxidArt P (Value S))) :
    CleanReply (answer (orExpected expected frame) run) := by
  refine answer_clean (fun res => ?_) run
  rcases res with got | a
  · exact clean_wrongTypeGot line got
  · exact clean a

theorem withKey_clean {name : String} (line : IsLine (ascii name)) (args : List SharedByte) (st : OxidArt P (Value S))
    {run : SharedByte → Answer P S} (clean : ∀ key, CleanReply (run key)) : CleanReply (withKey name args st run) := by
  unfold withKey
  split
  · exact .wrongArgs line
  · exact clean _

theorem withField_clean {name : String} (line : IsLine (ascii name)) (args : List SharedByte) (st : OxidArt P (Value S))
    {run : SharedByte → SharedByte → Answer P S} (clean : ∀ key field, CleanReply (run key field)) :
    CleanReply (withField name args st run) := by
  unfold withField
  split
  · exact clean _ _
  · exact .wrongArgs line

theorem withItems_clean {name : String} (line : IsLine (ascii name)) (args : List SharedByte) (st : OxidArt P (Value S))
    {run : SharedByte → List SharedByte → Answer P S} (clean : ∀ key items, CleanReply (run key items)) :
    CleanReply (withItems name args st run) := by
  unfold withItems
  split
  · exact clean _ _
  · exact .wrongArgs line

theorem withPairs_clean {name : String} (line : IsLine (ascii name)) (args : List SharedByte) (st : OxidArt P (Value S))
    {run : SharedByte → List (SharedByte × SharedByte) → Answer P S} (clean : ∀ key pairs, CleanReply (run key pairs)) :
    CleanReply (withPairs name args st run) := by
  unfold withPairs
  split
  · split
    · exact .wrongArgs line
    · exact clean _ _
  · exact .wrongArgs line

theorem clean_int64 (n : Int64) : (SharedFrame.integer n).Clean := trivial

theorem clean_integer (n : Nat) : (integer n).Clean := trivial

theorem clean_count32 (n : UInt32) : (count32 n).Clean := trivial

theorem clean_boolean (b : Bool) : (boolean b).Clean := trivial

/-! ## All data commands -/

theorem cmdGet_clean (args : List SharedByte) (st : OxidArt P (Value S)) : CleanReply (cmdGet args st) := by
  unfold cmdGet
  split
  · exact .wrongArgs (isLine_text rfl)
  · refine answer_clean (fun val => ?_) _
    cases val with
    | none => trivial
    | some val =>
      dsimp only
      split
      · trivial
      · exact clean_wrongType

theorem parseSetOptionsFrom_clean (opts : SetOptions) (args : List SharedByte) :
    Yields SharedFrame.Clean (fun _ => True) (parseSetOptionsFrom opts args) := by
  fun_induction parseSetOptionsFrom opts args with
  | case1 => trivial
  | case2 | case5 => exact clean_syntaxError
  | case3 | case6 => exact clean_notAnInteger
  | case4 _ _ _ _ _ _ _ ih | case7 _ _ _ _ _ _ _ _ ih => exact ih
  | case8 _ _ _ _ _ _ ih | case9 _ _ _ _ _ _ _ ih | case10 _ _ _ _ _ _ _ ih => exact ih

theorem setWith_clean (opts : SetOptions) (key val : SharedByte) (st : OxidArt P (Value S)) :
    CleanReply (setWith opts key val st) := by
  unfold setWith
  split
  · exact (returns_self _).bind fun _ _ => clean_respOk
  · exact (returns_self _).bind fun _ _ => clean_respOk

theorem cmdSet_clean (args : List SharedByte) (st : OxidArt P (Value S)) : CleanReply (cmdSet args st) := by
  unfold cmdSet
  split
  · split
    next e refused => exact .ok ((parseSetOptionsFrom_clean _ _).of_error refused)
    next =>
      split
      · exact setWith_clean _ _ _ _
      · refine (returns_self _).bind fun p _ => ?_
        dsimp only
        split
        · trivial
        · trivial
        · exact setWith_clean _ _ _ _
  · exact .wrongArgs (isLine_text rfl)

theorem cmdSetnx_clean (args : List SharedByte) (st : OxidArt P (Value S)) : CleanReply (cmdSetnx args st) := by
  unfold cmdSetnx
  split
  · refine (returns_self _).bind fun p _ => ?_
    dsimp only
    split
    · trivial
    · exact (returns_self _).bind fun _ _ => trivial
  · exact .wrongArgs (isLine_text rfl)

theorem cmdSetex_clean (args : List SharedByte) (st : OxidArt P (Value S)) : CleanReply (cmdSetex args st) := by
  unfold cmdSetex
  split
  · split
    · exact .ok clean_notAnInteger
    · exact (returns_self _).bind fun _ _ => clean_respOk
  · exact .wrongArgs (isLine_text rfl)

theorem cmdMget_clean (args : List SharedByte) (st : OxidArt P (Value S)) : CleanReply (cmdMget args st) := by
  unfold cmdMget
  split
  · exact .wrongArgs (isLine_text rfl)
  · refine answer_clean (fun vals => ?_) _
    exact allClean_map (fun val => clean_bulkOrNull (val.bind asBytes)) vals

theorem cmdMset_clean (args : List SharedByte) (st : OxidArt P (Value S)) : CleanReply (cmdMset args st) := by
  unfold cmdMset
  split
  · exact .wrongArgs (isLine_text rfl)
  · exact (returns_self _).bind fun _ _ => clean_respOk

theorem countHits_clean {name : String} (line : IsLine (ascii name))
    (act : OxidArt P (Value S) → SharedByte → Exec (Option (Value S) × OxidArt P (Value S))) (args : List SharedByte)
    (st : OxidArt P (Value S)) : CleanReply (countHits name act args st) := by
  unfold countHits
  split
  · exact .wrongArgs line
  · exact answer_clean (fun _ => clean_integer _) _

theorem cmdType_clean (args : List SharedByte) (st : OxidArt P (Value S)) : CleanReply (cmdType args st) := by
  unfold cmdType
  split
  · exact .wrongArgs (isLine_text rfl)
  · refine answer_clean (fun val => ?_) _
    exact isLine_redisTypeStr _

theorem count_clean (st : OxidArt P (Value S)) (key : SharedByte) (delta : Int64) : CleanReply (count st key delta) := by
  refine answer_clean (fun res => ?_) _
  rcases res with e | val
  · exact clean_counterErr e
  · trivial

theorem cmdIncrby_clean (args : List SharedByte) (st : OxidArt P (Value S)) : CleanReply (cmdIncrby args st) := by
  unfold cmdIncrby
  split
  · split
    · exact .ok clean_notAnInteger
    · exact count_clean st _ _
  · exact .wrongArgs (isLine_text rfl)

theorem cmdDecrby_clean (args : List SharedByte) (st : OxidArt P (Value S)) : CleanReply (cmdDecrby args st) := by
  unfold cmdDecrby
  split
  · split
    · exact .ok clean_notAnInteger
    · exact count_clean st _ _
  · exact .wrongArgs (isLine_text rfl)

theorem timeToLive_clean {name : String} (line : IsLine (ascii name)) (unit : Nat) (args : List SharedByte)
    (st : OxidArt P (Value S)) : CleanReply (timeToLive name unit args st) := by
  unfold timeToLive
  split
  · exact .wrongArgs line
  · refine (returns_self _).bind fun ttl _ => ?_
    split
    · trivial
    · trivial
    · trivial

theorem expireIn_clean {name : String} (line : IsLine (ascii name)) {refused : SharedFrame} (clean : refused.Clean)
    (duration : Nat → Duration) (args : List SharedByte) (st : OxidArt P (Value S)) :
    CleanReply (expireIn name refused duration args st) := by
  unfold expireIn
  split
  · split
    · exact .ok clean
    · exact answer_clean clean_boolean _
  · exact .wrongArgs line

theorem cmdHincrby_clean (args : List SharedByte) (st : OxidArt P (Value S)) : CleanReply (cmdHincrby args st) := by
  unfold cmdHincrby
  split
  · split
    · exact .ok clean_notAnInteger
    · exact orWrongType_clean clean_int64 _
  · exact .wrongArgs (isLine_text rfl)

theorem cmdSpop_clean (args : List SharedByte) (st : OxidArt P (Value S)) : CleanReply (cmdSpop args st) := by
  refine withKey_clean (isLine_text rfl) args st fun key => answer_clean (fun res => ?_) _
  rcases res with (_ | _) | (member | members)
  · exact clean_wrongType
  · exact clean_notAnInteger
  · exact clean_bulkOrNull member
  · exact clean_bulks members

theorem cmdZadd_clean (parseF64 : SharedByte → Option S) (args : List SharedByte) (st : OxidArt P (Value S)) :
    CleanReply (cmdZadd parseF64 args st) := by
  refine withPairs_clean (isLine_text rfl) args st fun key pairs => ?_
  split
  · exact .ok clean_notAFloat
  · exact orInternal_clean clean_count32 _

theorem cmdZcard_clean (args : List SharedByte) (st : OxidArt P (Value S)) : CleanReply (cmdZcard args st) := by
  unfold cmdZcard
  split
  · exact orExpected_clean (isLine_text rfl) clean_count32 _
  · exact .wrongArgs (isLine_text rfl)

theorem cmdZrange_clean (args : List SharedByte) (st : OxidArt P (Value S)) : CleanReply (cmdZrange args st) := by
  unfold cmdZrange
  split
  · split
    · exact orExpected_clean (isLine_text rfl) clean_bulks _
    · exact .ok clean_notAnInteger
  · exact .wrongArgs (isLine_text rfl)

theorem cmdZscore_clean (args : List SharedByte) (st : OxidArt P (Value S)) : CleanReply (cmdZscore args st) := by
  unfold cmdZscore
  split
  · exact orExpected_clean (isLine_text rfl) (fun _ => clean_bulkOrNull _) _
  · exact .wrongArgs (isLine_text rfl)

theorem cmdZincrby_clean (parseF64 : SharedByte → Option S) (args : List SharedByte) (st : OxidArt P (Value S)) :
    CleanReply (cmdZincrby parseF64 args st) := by
  unfold cmdZincrby
  split
  · split
    · exact .ok clean_notAFloat
    · exact orInternal_clean (fun _ => clean_bulkString _) _
  · exact .wrongArgs (isLine_text rfl)

theorem DataFn.run_clean (lib : Library S) (f : DataFn) (args : List SharedByte) (st : OxidArt P (Value S)) :
    CleanReply (f.run lib args st) := by
  cases f with
  | cmdGet => exact cmdGet_clean args st
  | cmdSet => exact cmdSet_clean args st
  | cmdSetnx => exact cmdSetnx_clean args st
  | cmdSetex => exact cmdSetex_clean args st
  | cmdMget => exact cmdMget_clean args st
  | cmdMset => exact cmdMset_clean args st
  | cmdDel => exact countHits_clean (isLine_text rfl) OxidArt.del args st
  | cmdExists => exact countHits_clean (isLine_text rfl) OxidArt.get args st
  | cmdType => exact cmdType_clean args st
  | cmdIncr =>
    cases args with
    | nil => exact .wrongArgs (isLine_text rfl)
    | cons key _ => exact count_clean st key 1
  | cmdDecr =>
    cases args with
    | nil => exact .wrongArgs (isLine_text rfl)
    | cons key _ => exact count_clean st key (-1)
  | cmdIncrby => exact cmdIncrby_clean args st
  | cmdDecrby => exact cmdDecrby_clean args st
  | cmdTtl => exact timeToLive_clean (isLine_text rfl) 1 args st
  | cmdPttl => exact timeToLive_clean (isLine_text rfl) 1000 args st
  | cmdExpire =>
    have clean : (SharedFrame.error (ascii "ERR value is not an integer")).Clean := isLine_text rfl
    exact expireIn_clean (isLine_text rfl) clean _ args st
  | cmdPexpire => exact expireIn_clean (isLine_text rfl) clean_notAnInteger _ args st
  | cmdPersist =>
    cases args with
    | nil => exact .wrongArgs (isLine_text rfl)
    | cons key _ => exact answer_clean clean_boolean _
  | cmdHset =>
    rw [DataFn.run]
    refine withPairs_clean (isLine_text rfl) args st fun _ _ => ?_
    exact orInternal_clean clean_count32 _
  | cmdHmset =>
    rw [DataFn.run]
    refine withPairs_clean (isLine_text rfl) args st fun _ _ => ?_
    exact orInternal_clean (fun _ => clean_respOk) _
  | cmdHget =>
    refine withField_clean (isLine_text rfl) args st fun _ _ => ?_
    exact orWrongType_clean clean_bulkOrNull _
  | cmdHgetall =>
    refine withKey_clean (isLine_text rfl) args st fun _ => ?_
    exact orWrongType_clean clean_bulks _
  | cmdHdel =>
    rw [DataFn.run]
    refine withItems_clean (isLine_text rfl) args st fun _ _ => ?_
    exact orWrongType_clean clean_count32 _
  | cmdHexists =>
    refine withField_clean (isLine_text rfl) args st fun _ _ => ?_
    exact orWrongType_clean clean_boolean _
  | cmdHlen =>
    refine withKey_clean (isLine_text rfl) args st fun _ => ?_
    exact orWrongType_clean clean_count32 _
  | cmdHkeys =>
    refine withKey_clean (isLine_text rfl) args st fun _ => ?_
    exact orWrongType_clean clean_bulks _
  | cmdHvals =>
    refine withKey_clean (isLine_text rfl) args st fun _ => ?_
    exact orWrongType_clean clean_bulks _
  | cmdHmget =>
    rw [DataFn.run]
    refine withItems_clean (isLine_text rfl) args st fun _ _ => ?_
    refine orWrongType_clean (fun values => ?_) _
    exact allClean_map clean_bulkOrNull values
  | cmdHincrby => exact cmdHincrby_clean args st
  | cmdSadd =>
    rw [DataFn.run]
    refine withItems_clean (isLine_text rfl) args st fun _ _ => ?_
    exact orInternal_clean clean_count32 _
  | cmdSrem =>
    rw [DataFn.run]
    refine withItems_clean (isLine_text rfl) args st fun _ _ => ?_
    exact orExpected_clean (isLine_text rfl) clean_count32 _
  | cmdSismember =>
    refine withField_clean (isLine_text rfl) args st fun _ _ => ?_
    exact orExpected_clean (isLine_text rfl) clean_boolean _
  | cmdScard =>
    refine withKey_clean (isLine_text rfl) args st fun _ => ?_
    exact orExpected_clean (isLine_text rfl) clean_count32 _
  | cmdSmembers =>
    refine withKey_clean (isLine_text rfl) args st fun _ => ?_
    exact orExpected_clean (isLine_text rfl) clean_bulks _
  | cmdSpop => exact cmdSpop_clean args st
  | cmdZadd => exact cmdZadd_clean lib.parseF64 args st
  | cmdZcard => exact cmdZcard_clean args st
  | cmdZrange => exact cmdZrange_clean args st
  | cmdZscore => exact cmdZscore_clean args st
  | cmdZrem =>
    rw [DataFn.run]
    refine withItems_clean (isLine_text rfl) args st fun _ _ => ?_
    exact orExpected_clean (isLine_text rfl) clean_count32 _
  | cmdZincrby => exact cmdZincrby_clean lib.parseF64 args st

/-! ## The reply as bytes -/

variable {σ τ : Type}

theorem keysWith_clean (new : SharedByte → Option (Dfa σ)) (getn : SharedByte → Exec (List SharedByte)) (args : List SharedByte)
    (st : OxidArt P (Value S)) : Returns SharedFrame.Clean (keysWith new getn args st) := by
  unfold keysWith
  split
  · exact (returns_self _).bind fun keys _ => clean_bulks keys
  · split
    · exact (returns_self _).bind fun keys _ => clean_bulks keys
    · refine (returns_self _).bind fun found _ => ?_
      split
      · exact clean_bulks _
      · exact isLine_text rfl

theorem AsyncFn.reply_clean (new : SharedByte → Option (Dfa σ)) (awaits : Awaits τ) (world : τ) (args : List SharedByte)
    (st : OxidArt P (Value S)) (f : AsyncFn) : Returns SharedFrame.Clean (f.reply new awaits world args st) := by
  cases f with
  | cmdKeys =>
    rw [AsyncFn.reply]
    exact keysWith_clean new _ args st
  | cmdUnlink => exact (returns_self _).map fun p _ => clean_integer p.1

theorem publishEncode_clean (reg : SubRegistry) (args : List SharedByte) :
    Returns (fun p => p.1.1.Clean) (reg.publishEncode args) := by
  unfold SubRegistry.publishEncode
  split
  · split
    · trivial
    · split
      · trivial
      · trivial
  · exact isLine_text rfl

theorem cmdEcho_clean (args : List SharedByte) : (cmdEcho args).Clean := by
  unfold cmdEcho
  split
  · exact clean_wrongArgs (isLine_text rfl)
  · trivial

theorem cmdDbsize_clean (st : OxidArt P (Value S)) : CleanReply (cmdDbsize st) := by
  refine (returns_self _).bind fun pairs _ => ?_
  exact clean_integer pairs.length

variable (lib : Library S) (new : SharedByte → Option (Dfa σ)) (awaits : Awaits τ) (world : τ) (reg : SubRegistry)

/-- The reply to a known command is clean, whatever the state. -/
theorem normalReply_clean {cmd : SharedByte} {h : Handler} (known : getHandler cmd = some h) (args : List SharedByte)
    (st : OxidArt P (Value S)) :
    Returns (fun reply => ∀ frame, reply = some frame → frame.Clean) (normalReply lib new awaits world reg cmd args st) := by
  have sends : ∀ {frame : SharedFrame}, frame.Clean → ∀ other, some frame = some other → other.Clean := by
    intro frame clean other same
    rwa [← Option.some.inj same]
  unfold normalReply
  rw [known]
  cases h with
  | subscribe =>
    intro frame same
    cases same
  | unsubscribe => trivial
  | publish => exact (publishEncode_clean reg args).mapError.map fun p clean => sends clean
  | ping => exact sends (isLine_text rfl)
  | quit | static => exact sends clean_respOk
  | args => exact sends (cmdEcho_clean args)
  | data f => exact (f.run_clean lib args st).mapError.map fun p clean => sends clean
  | dataOnly f =>
    cases f with
    | cmdDbsize => exact (cmdDbsize_clean st).mapError.map fun p clean => sends clean
    | cmdFlushdb => exact (answer_clean (fun _ => clean_respOk) _).mapError.map fun p clean => sends clean
  | async f => exact (f.reply_clean new awaits world args st).mapError.map fun p clean => sends clean

theorem normalReply_unknown {cmd : SharedByte} (unknown : getHandler cmd = none) (args : List SharedByte) (st : OxidArt P (Value S)) :
    normalReply lib new awaits world reg cmd args st = .ok (some (.error (System.unknownCommand cmd))) := by
  unfold normalReply
  rw [unknown]

/-- A client makes one frame of the bytes, with nothing left over. -/
def ParsesAsOne (bytes : SharedByte) : Prop := ∃ fuel frame, readFrame fuel bytes = some (frame, [])

theorem parsesAsOne_of_clean {frame : SharedFrame} {bytes : SharedByte} (clean : frame.Clean)
    (encoded : extendEncode [] frame = some bytes) : ParsesAsOne bytes := by
  have same : bytes = frame.wire := encodeFrame_wire frame encoded
  refine ⟨frame.depth, frame, ?_⟩
  rw [same, ← List.append_nil frame.wire]
  exact readFrame_wire frame clean [] _ (Nat.le_refl _)

/-- The line of an error is read up to its first line end. -/
theorem isLine_of_parsesAsOne {text bytes : SharedByte} (encoded : extendEncode [] (.error text) = some bytes)
    (parses : ParsesAsOne bytes) : IsLine text := by
  obtain rfl : [] ++ [45] ++ text ++ crlf = bytes := Option.some.inj encoded
  obtain ⟨fuel, frame, read⟩ := parses
  cases fuel with
  | zero => cases read
  | succ fuel =>
    obtain ⟨⟨line, rest⟩, found, read⟩ := Option.bind_eq_some_iff.1 read
    obtain ⟨-, rfl⟩ := Prod.mk.inj (Option.some.inj read)
    obtain ⟨whole, clean⟩ := eq_append_of_readLine found
    rw [List.append_nil] at whole
    have same : text = line := List.append_cancel_right whole
    exact same ▸ clean

/-- Whatever the state and the arguments, what a connection in the normal state is sent parses as exactly one frame, and
none of its lines holds CR or LF, exactly when the name of the command holds neither. A request on which the code panics is
sent nothing. -/
theorem reply_parses_iff (cmd : SharedByte) (args : List SharedByte) (st : OxidArt P (Value S)) (frame : SharedFrame)
    (bytes : SharedByte) (answered : normalReply lib new awaits world reg (toUppercase cmd) args st = .ok (some frame))
    (encoded : extendEncode [] frame = some bytes) : (ParsesAsOne bytes ↔ IsLine cmd) ∧ (frame.Clean ↔ IsLine cmd) := by
  rw [← isLine_toUppercase]
  cases known : getHandler (toUppercase cmd) with
  | some h =>
    have line := isLine_of_getHandler known
    have clean := (normalReply_clean lib new awaits world reg known args st).of_ok answered frame rfl
    exact ⟨iff_of_true (parsesAsOne_of_clean clean encoded) line, iff_of_true clean line⟩
  | none =>
    obtain rfl := Option.some.inj (Except.ok.inj ((normalReply_unknown lib new awaits world reg known args st).symm.trans answered))
    have line : (SharedFrame.error (System.unknownCommand (toUppercase cmd))).Clean ↔ IsLine (toUppercase cmd) :=
      isLine_unknownCommand _
    rw [← line]
    exact ⟨⟨isLine_of_parsesAsOne encoded, fun clean => parsesAsOne_of_clean clean encoded⟩, Iff.rfl⟩

end Clean

/-- No floats and a small regular expression. -/
def plainLibrary : Library Int := ⟨.stored, fun _ => none⟩

/-- A value with a line end, looked up: it goes into a bulk string. -/
theorem reply_parses_iff_get : ∃ replies st bytes,
    Runs.run (OxidArt.exec .stored) [.tree (.set (ascii "k") (.string (ascii "a\r\nb")))] (.new : OxidArt .lowest (Value Int)) =
      .ok (replies, st) ∧
    normalReply plainLibrary letterNew .alone (.new : OxidArt .lowest (Value Int)) .new (toUppercase (ascii "get")) [ascii "k"] st =
      .ok (some (.bulkString (ascii "a\r\nb"))) ∧
    extendEncode [] (.bulkString (ascii "a\r\nb")) = some bytes ∧ ParsesAsOne bytes := by
  have known : getHandler (toUppercase (ascii "get")) = some (.data .cmdGet) := by decide +kernel
  have line : IsLine (ascii "get") := isLine_text rfl
  obtain ⟨replies, st, ran⟩ : ∃ replies st, Runs.run (OxidArt.exec .stored)
      [.tree (.set (ascii "k") (.string (ascii "a\r\nb")))] (.new : OxidArt .lowest (Value Int)) = .ok (replies, st) := ⟨_, _, rfl⟩
  have answered : normalReply plainLibrary letterNew .alone (.new : OxidArt .lowest (Value Int)) .new
      (toUppercase (ascii "get")) [ascii "k"] st = .ok (some (.bulkString (ascii "a\r\nb"))) := by
    obtain ⟨-, rfl⟩ := Prod.mk.inj (Except.ok.inj ran)
    unfold normalReply
    rw [known]
    rfl
  exact ⟨replies, st, _, ran, answered, rfl, (reply_parses_iff _ _ _ _ _ (ascii "get") [ascii "k"] st _ _ answered rfl).1.2 line⟩

/-- A name with line ends: the client gets the bytes of three replies. -/
theorem unknown_command_forges_replies : ∃ frame bytes,
    frameToArgs (.array [.bulkString (ascii "a\r\n+OK\r\n-")]) = some (ascii "a\r\n+OK\r\n-", []) ∧
    normalReply plainLibrary letterNew .alone (.new : OxidArt .lowest (Value Int)) .new (toUppercase (ascii "a\r\n+OK\r\n-")) []
      (.new : OxidArt .lowest (Value Int)) = .ok (some frame) ∧ extendEncode [] frame = some bytes ∧
    ¬ ParsesAsOne bytes ∧ ¬ frame.Clean ∧
    encodeFrames [] [.error (ascii "ERR unknown command 'A"), .simpleString (ascii "OK"), .error (ascii "'")] = some bytes := by
  have unknown : getHandler (toUppercase (ascii "a\r\n+OK\r\n-")) = none := by decide +kernel
  have dirty : ¬ IsLine (System.unknownCommand (toUppercase (ascii "a\r\n+OK\r\n-"))) := by decide +kernel
  refine ⟨_, _, rfl, normalReply_unknown _ _ _ _ _ unknown _ _, rfl, ?_, dirty, by decide +kernel⟩
  exact fun parses => dirty (isLine_of_parsesAsOne rfl parses)

/-! ## In the server -/

section Dispatch

variable {P : Policy} {S : Type} [Score S] {σ τ : Type}

/-- A connection in the normal state sends this reply, at once or after its handler has run. -/
theorem dispatch_sends (lib : Library S) (new : SharedByte → Option (Dfa σ)) (awaits : Awaits τ) (world : τ)
    (order : ChannelOrder) {s : System} {c : Nat} {write : WriteHalf} {buf : SharedByte}
    (normal : s.runtime.conns c = .idle (.normal write buf)) {cmd : SharedByte} {args : List SharedByte}
    {st : OxidArt P (Value S)} {frame : SharedFrame}
    (answered : normalReply lib new awaits world s.runtime.registry cmd args st = .ok (some frame)) :
    s.dispatch order c cmd args = .ok (s.setSession c .running) ∨
      ∃ (s' : System) (rest : Rest), s'.runtime.conns = s.runtime.conns ∧ s.dispatch order c cmd args = s'.sendThen c frame rest := by
  unfold normalReply at answered
  unfold System.dispatch
  rw [normal]
  cases known : getHandler cmd with
  | none =>
    rw [known] at answered
    obtain rfl := Option.some.inj (Except.ok.inj answered)
    exact .inr ⟨s, .answered, rfl, rfl⟩
  | some h =>
    rw [known] at answered
    cases h with
    | subscribe | unsubscribe => cases answered
    | static | args | data | dataOnly | async => exact .inl rfl
    | ping =>
      obtain rfl := Option.some.inj (Except.ok.inj answered)
      exact .inr ⟨s, .answered, rfl, rfl⟩
    | quit =>
      obtain rfl := Option.some.inj (Except.ok.inj answered)
      exact .inr ⟨s, .quitting, rfl, rfl⟩
    | publish =>
      cases published : s.runtime.registry.publishEncode args with
      | error e =>
        rw [published] at answered
        cases answered
      | ok p =>
        rw [published] at answered
        obtain rfl := Option.some.inj (Except.ok.inj answered)
        exact .inr ⟨{ s with runtime := { s.runtime with registry := p.2 } }, .flushing p.1.2, rfl, by simp only [bind, Except.bind]⟩

end Dispatch

end Radixox.Server.Resp
