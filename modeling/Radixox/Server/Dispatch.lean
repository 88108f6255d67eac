import Radixox.Server.SetOpts

/-!
# The byte trie

`dispatch` of `cmd.rs` tells the command from the length of its first word and a few letters, where
`get_handler` compares the whole word. Each handler has a command of `cmd.rs`, built from the
arguments; each leaf of the trie is that of one handler. What `arg_f64` makes of a text is a parameter.
-/

namespace Radixox.Server
set_option autoImplicit false
open Resp

/-- A command and its arguments as `from_slice` passes them on. Scores are in `S`. -/
inductive Cmd (S : Type) where
  | ping (message : Option SharedByte)
  | quit
  | echo (message : SharedByte)
  | select (index : Nat)
  | dbSize
  | flushDb
  | get (key : SharedByte)
  | set (key val : SharedByte) (opts : Cmd.SetOpts)
  | mGet (keys : List SharedByte)
  | mSet (pairs : List (SharedByte × SharedByte))
  | del (keys : List SharedByte)
  | unlink (keys : List SharedByte)
  | «exists» (keys : List SharedByte)
  | type (key : SharedByte)
  | keys (pattern : SharedByte)
  | ttl (key : SharedByte)
  | pttl (key : SharedByte)
  | expire (key : SharedByte) (dur : Duration)
  | persist (key : SharedByte)
  | incr (key : SharedByte)
  | decr (key : SharedByte)
  | incrBy (key : SharedByte) (delta : Int64)
  | decrBy (key : SharedByte) (delta : Int64)
  | hSet (key : SharedByte) (fields : List (SharedByte × SharedByte))
  | hGet (key field : SharedByte)
  | hGetAll (key : SharedByte)
  | hDel (key : SharedByte) (fields : List SharedByte)
  | hExists (key field : SharedByte)
  | hLen (key : SharedByte)
  | hKeys (key : SharedByte)
  | hVals (key : SharedByte)
  | hMGet (key : SharedByte) (fields : List SharedByte)
  | hIncrBy (key field : SharedByte) (delta : Int64)
  | sAdd (key : SharedByte) (members : List SharedByte)
  | sRem (key : SharedByte) (members : List SharedByte)
  | sIsMember (key member : SharedByte)
  | sCard (key : SharedByte)
  | sMembers (key : SharedByte)
  | sPop (key : SharedByte) (count : Option Nat)
  | zAdd (key : SharedByte) (members : List (S × SharedByte))
  | zCard (key : SharedByte)
  | zRange (key : SharedByte) (start stop : Int64) (withScores : Bool)
  | zScore (key member : SharedByte)
  | zRem (key : SharedByte) (members : List SharedByte)
  | zIncrBy (key : SharedByte) (delta : S) (member : SharedByte)
  | subscribe (channels : List SharedByte)
  | unsubscribe (channels : List SharedByte)
  | publish (channel message : SharedByte)

namespace Cmd

/-! ## The trie -/

/-- `need!`. -/
def need {α : Type} (n : Nat) (args : List SharedByte) (built : Option α) : Option α :=
  if args.length < n then none else built

def arg (args : List SharedByte) (i : Nat) : SharedByte := args.getD i []

section Dispatch

variable {S : Type} (argF64 : SharedByte → Option S)

/-- `HSET` and `HMSET`: a key and pairs of a field and a value. -/
def fieldPairs (args : List SharedByte) : Option (Cmd S) :=
  if args.length < 3 ∨ (args.length - 1) % 2 ≠ 0 then none else some (.hSet (arg args 0) (chunksExact (args.drop 1)))

/-- `dispatch` on the word `cmd = raw[0]` and the arguments `args = raw[1..]`. -/
def dispatch (cmd : SharedByte) (args : List SharedByte) : Option (Cmd S) :=
  if cmd.length < 3 then none
  else match lower cmd 0 with
    | 'd' => match cmd.length with
      | 3 => need 1 args (some (.del args))
      | 4 => need 1 args (some (.decr (arg args 0)))
      | 6 => match lower cmd 1 with
        | 'b' => some .dbSize
        | 'e' => need 2 args ((argI64 (arg args 1)).map fun delta => .decrBy (arg args 0) delta)
        | _ => none
      | _ => none
    | 'e' => match cmd.length with
      | 4 => need 1 args (some (.echo (arg args 0)))
      | 6 => match lower cmd 2 with
        | 'i' => need 1 args (some (.exists args))
        | 'p' => need 2 args ((argU64 (arg args 1)).map fun secs => .expire (arg args 0) (.fromSecs secs))
        | _ => none
      | _ => none
    | 'f' => if cmd.length = 7 then some .flushDb else none
    | 'g' => if cmd.length = 3 then need 1 args (some (.get (arg args 0))) else none
    | 'h' => match cmd.length with
      | 4 => match lower cmd 1 with
        | 's' => fieldPairs args
        | 'g' => need 2 args (some (.hGet (arg args 0) (arg args 1)))
        | 'd' => need 2 args (some (.hDel (arg args 0) (args.drop 1)))
        | 'l' => need 1 args (some (.hLen (arg args 0)))
        | _ => none
      | 5 => match lower cmd 1 with
        | 'k' => need 1 args (some (.hKeys (arg args 0)))
        | 'v' => need 1 args (some (.hVals (arg args 0)))
        | 'm' => match lower cmd 2 with
          | 'g' => need 2 args (some (.hMGet (arg args 0) (args.drop 1)))
          | 's' => fieldPairs args
          | _ => none
        | _ => none
      | 7 => match lower cmd 1 with
        | 'g' => need 1 args (some (.hGetAll (arg args 0)))
        | 'e' => need 2 args (some (.hExists (arg args 0) (arg args 1)))
        | 'i' => need 3 args ((argI64 (arg args 2)).map fun delta => .hIncrBy (arg args 0) (arg args 1) delta)
        | _ => none
      | _ => none
    | 'i' => match cmd.length with
      | 4 => need 1 args (some (.incr (arg args 0)))
      | 6 => need 2 args ((argI64 (arg args 1)).map fun delta => .incrBy (arg args 0) delta)
      | _ => none
    | 'k' => if cmd.length = 4 then need 1 args (some (.keys (arg args 0))) else none
    | 'm' => if cmd.length = 4 then match lower cmd 1 with
        | 'g' => need 1 args (some (.mGet args))
        | 's' => if args.isEmpty ∨ args.length % 2 ≠ 0 then none else some (.mSet (chunksExact args))
        | _ => none
      else none
    | 'p' => match cmd.length with
      | 4 => match lower cmd 1 with
        | 'i' => some (.ping args.head?)
        | 't' => need 1 args (some (.pttl (arg args 0)))
        | _ => none
      | 7 => match lower cmd 1 with
        | 'e' => match lower cmd 2 with
          | 'r' => need 1 args (some (.persist (arg args 0)))
          | 'x' => need 2 args ((argU64 (arg args 1)).map fun ms => .expire (arg args 0) (.fromMillis ms))
          | _ => none
        | 'u' => need 2 args (some (.publish (arg args 0) (arg args 1)))
        | _ => none
      | _ => none
    | 'q' => if cmd.length = 4 then some .quit else none
    | 's' => match cmd.length with
      | 3 => need 2 args ((parseSetOpts (args.drop 2)).map fun opts => .set (arg args 0) (arg args 1) opts)
      | 4 => match lower cmd 1 with
        | 'a' => need 2 args (some (.sAdd (arg args 0) (args.drop 1)))
        | 'r' => need 2 args (some (.sRem (arg args 0) (args.drop 1)))
        | 'p' => need 1 args (some (.sPop (arg args 0) (args[1]?.bind argU64)))
        | _ => none
      | 5 => match lower cmd 1 with
        | 'c' => need 1 args (some (.sCard (arg args 0)))
        | 'e' => match lower cmd 3 with
          | 'e' => need 3 args ((argU64 (arg args 1)).map fun secs =>
              .set (arg args 0) (arg args 2) ⟨some (.fromSecs secs), .always⟩)
          | 'n' => need 2 args (some (.set (arg args 0) (arg args 1) ⟨none, .ifNotExists⟩))
          | _ => none
        | _ => none
      | 6 => need 1 args ((argU64 (arg args 0)).map .select)
      | 8 => need 1 args (some (.sMembers (arg args 0)))
      | 9 => match lower cmd 1 with
        | 'i' => need 2 args (some (.sIsMember (arg args 0) (arg args 1)))
        | 'u' => need 1 args (some (.subscribe args))
        | _ => none
      | _ => none
    | 't' => match cmd.length with
      | 3 => need 1 args (some (.ttl (arg args 0)))
      | 4 => need 1 args (some (.type (arg args 0)))
      | _ => none
    | 'u' => match cmd.length with
      | 6 => need 1 args (some (.unlink args))
      | 11 => some (.unsubscribe args)
      | _ => none
    | 'z' => match cmd.length with
      | 4 => match lower cmd 1 with
        | 'a' => scoredPairs args
        | 'r' => need 2 args (some (.zRem (arg args 0) (args.drop 1)))
        | _ => none
      | 5 => need 1 args (some (.zCard (arg args 0)))
      | 6 => match lower cmd 1 with
        | 'r' => need 3 args (range args)
        | 's' => need 2 args (some (.zScore (arg args 0) (arg args 1)))
        | _ => none
      | 7 => need 3 args ((argF64 (arg args 1)).map fun delta => .zIncrBy (arg args 0) delta (arg args 2))
      | _ => none
    | _ => none
where
  /-- `ZADD`: a key and pairs of a score and a member. -/
  scoredPairs (args : List SharedByte) : Option (Cmd S) :=
    if args.length < 3 ∨ (args.length - 1) % 2 ≠ 0 then none
    else ((chunksExact (args.drop 1)).mapM fun pair => (argF64 pair.1).map fun score => (score, pair.2)).map (.zAdd (arg args 0))
  /-- `ZRANGE`; `WITHSCORES` is any word of ten bytes that begins with a w. -/
  range (args : List SharedByte) : Option (Cmd S) := do
    let withScores := match args[3]? with
      | some s => s.length = 10 && lower s 0 = 'w'
      | none => false
    let start ← argI64 (arg args 1)
    let stop ← argI64 (arg args 2)
    return .zRange (arg args 0) start stop withScores

/-! ## The commands of the handlers -/

/-- The handler of a command. -/
def handler : Cmd S → Handler
  | ping _ => .ping
  | quit => .quit
  | echo _ => .args
  | select _ => .static
  | dbSize => .dataOnly .cmdDbsize
  | flushDb => .dataOnly .cmdFlushdb
  | get _ => .data .cmdGet
  | set .. => .data .cmdSet
  | mGet _ => .data .cmdMget
  | mSet _ => .data .cmdMset
  | del _ => .data .cmdDel
  | unlink _ => .async .cmdUnlink
  | «exists» _ => .data .cmdExists
  | type _ => .data .cmdType
  | keys _ => .async .cmdKeys
  | ttl _ => .data .cmdTtl
  | pttl _ => .data .cmdPttl
  | expire .. => .data .cmdExpire
  | persist _ => .data .cmdPersist
  | incr _ => .data .cmdIncr
  | decr _ => .data .cmdDecr
  | incrBy .. => .data .cmdIncrby
  | decrBy .. => .data .cmdDecrby
  | hSet .. => .data .cmdHset
  | hGet .. => .data .cmdHget
  | hGetAll _ => .data .cmdHgetall
  | hDel .. => .data .cmdHdel
  | hExists .. => .data .cmdHexists
  | hLen _ => .data .cmdHlen
  | hKeys _ => .data .cmdHkeys
  | hVals _ => .data .cmdHvals
  | hMGet .. => .data .cmdHmget
  | hIncrBy .. => .data .cmdHincrby
  | sAdd .. => .data .cmdSadd
  | sRem .. => .data .cmdSrem
  | sIsMember .. => .data .cmdSismember
  | sCard _ => .data .cmdScard
  | sMembers _ => .data .cmdSmembers
  | sPop .. => .data .cmdSpop
  | zAdd .. => .data .cmdZadd
  | zCard _ => .data .cmdZcard
  | zRange .. => .data .cmdZrange
  | zScore .. => .data .cmdZscore
  | zRem .. => .data .cmdZrem
  | zIncrBy .. => .data .cmdZincrby
  | subscribe _ => .subscribe
  | unsubscribe _ => .unsubscribe
  | publish .. => .publish

/-- `SETNX` and `SETEX` count as `SET`, `HMSET` as `HSET`, `PEXPIRE` as `EXPIRE`. -/
def countsAs : Handler → Handler
  | .data .cmdSetnx => .data .cmdSet
  | .data .cmdSetex => .data .cmdSet
  | .data .cmdHmset => .data .cmdHset
  | .data .cmdPexpire => .data .cmdExpire
  | h => h

/-- The places of a word that the trie looks at before it takes it for the command of a handler, with the letters it
wants there. -/
def letters : Handler → List (Nat × Char)
  | .ping => [(0, 'p'), (1, 'i')]
  | .quit => [(0, 'q')]
  | .static => [(0, 's')]
  | .args => [(0, 'e')]
  | .subscribe => [(0, 's'), (1, 'u')]
  | .unsubscribe => [(0, 'u')]
  | .publish => [(0, 'p'), (1, 'u')]
  | .dataOnly .cmdDbsize => [(0, 'd'), (1, 'b')]
  | .dataOnly .cmdFlushdb => [(0, 'f')]
  | .async .cmdKeys => [(0, 'k')]
  | .async .cmdUnlink => [(0, 'u')]
  | .data .cmdGet => [(0, 'g')]
  | .data .cmdSet => [(0, 's')]
  | .data .cmdSetnx => [(0, 's'), (1, 'e'), (3, 'n')]
  | .data .cmdSetex => [(0, 's'), (1, 'e'), (3, 'e')]
  | .data .cmdMget => [(0, 'm'), (1, 'g')]
  | .data .cmdMset => [(0, 'm'), (1, 's')]
  | .data .cmdDel => [(0, 'd')]
  | .data .cmdExists => [(0, 'e'), (2, 'i')]
  | .data .cmdType => [(0, 't')]
  | .data .cmdIncr => [(0, 'i')]
  | .data .cmdDecr => [(0, 'd')]
  | .data .cmdIncrby => [(0, 'i')]
  | .data .cmdDecrby => [(0, 'd'), (1, 'e')]
  | .data .cmdTtl => [(0, 't')]
  | .data .cmdPttl => [(0, 'p'), (1, 't')]
  | .data .cmdExpire => [(0, 'e'), (2, 'p')]
  | .data .cmdPexpire => [(0, 'p'), (1, 'e'), (2, 'x')]
  | .data .cmdPersist => [(0, 'p'), (1, 'e'), (2, 'r')]
  | .data .cmdHset => [(0, 'h'), (1, 's')]
  | .data .cmdHmset => [(0, 'h'), (1, 'm'), (2, 's')]
  | .data .cmdHget => [(0, 'h'), (1, 'g')]
  | .data .cmdHgetall => [(0, 'h'), (1, 'g')]
  | .data .cmdHdel => [(0, 'h'), (1, 'd')]
  | .data .cmdHexists => [(0, 'h'), (1, 'e')]
  | .data .cmdHlen => [(0, 'h'), (1, 'l')]
  | .data .cmdHkeys => [(0, 'h'), (1, 'k')]
  | .data .cmdHvals => [(0, 'h'), (1, 'v')]
  | .data .cmdHmget => [(0, 'h'), (1, 'm'), (2, 'g')]
  | .data .cmdHincrby => [(0, 'h'), (1, 'i')]
  | .data .cmdSadd => [(0, 's'), (1, 'a')]
  | .data .cmdSrem => [(0, 's'), (1, 'r')]
  | .data .cmdSismember => [(0, 's'), (1, 'i')]
  | .data .cmdScard => [(0, 's'), (1, 'c')]
  | .data .cmdSmembers => [(0, 's')]
  | .data .cmdSpop => [(0, 's'), (1, 'p')]
  | .data .cmdZadd => [(0, 'z'), (1, 'a')]
  | .data .cmdZcard => [(0, 'z')]
  | .data .cmdZrange => [(0, 'z'), (1, 'r')]
  | .data .cmdZscore => [(0, 'z'), (1, 's')]
  | .data .cmdZrem => [(0, 'z'), (1, 'r')]
  | .data .cmdZincrby => [(0, 'z')]

/-- How many arguments the trie wants. -/
def arity : Handler → Nat
  | .ping | .quit | .unsubscribe | .dataOnly _ => 0
  | .args | .static | .subscribe | .async _ => 1
  | .publish => 2
  | .data .cmdGet | .data .cmdMget | .data .cmdDel | .data .cmdExists | .data .cmdType | .data .cmdIncr | .data .cmdDecr => 1
  | .data .cmdTtl | .data .cmdPttl | .data .cmdPersist | .data .cmdHgetall | .data .cmdHlen | .data .cmdHkeys => 1
  | .data .cmdHvals | .data .cmdScard | .data .cmdSmembers | .data .cmdSpop | .data .cmdZcard | .data .cmdMset => 1
  | .data .cmdHset | .data .cmdHmset | .data .cmdHincrby | .data .cmdSetex | .data .cmdZadd | .data .cmdZrange => 3
  | .data .cmdZincrby => 3
  | .data _ => 2

/-- The arguments are enough, those that are paired come in pairs, and those that are numbers can be read. -/
def accepts (h : Handler) (args : List SharedByte) : Bool :=
  arity h ≤ args.length && match h with
    | .static => (argU64 (arg args 0)).isSome
    | .data .cmdSet => (parseSetOpts (args.drop 2)).isSome
    | .data .cmdSetex | .data .cmdExpire | .data .cmdPexpire => (argU64 (arg args 1)).isSome
    | .data .cmdIncrby | .data .cmdDecrby => (argI64 (arg args 1)).isSome
    | .data .cmdHincrby => (argI64 (arg args 2)).isSome
    | .data .cmdMset => args.length % 2 = 0
    | .data .cmdHset | .data .cmdHmset => (args.length - 1) % 2 = 0
    | .data .cmdZadd => (args.length - 1) % 2 = 0 && (chunksExact (args.drop 1)).all fun pair => (argF64 pair.1).isSome
    | .data .cmdZrange => (argI64 (arg args 1)).isSome && (argI64 (arg args 2)).isSome
    | .data .cmdZincrby => (argF64 (arg args 1)).isSome
    | _ => true

/-- The word has the length of the name and its letters where the trie looks. -/
def Resembles (cmd : SharedByte) (arm : String × Handler) : Prop :=
  cmd.length = (ascii arm.1).length ∧ (letters arm.2).Forall fun p => lower cmd p.1 = p.2

/-! ## Leaves -/

/-- A leaf gives a command of `h` if `accepted`, and none otherwise. -/
def Yields (accepted : Bool) (h : Handler) (result : Option (Cmd S)) : Prop :=
  result.map handler = if accepted then some h else none

theorem yields_some {h : Handler} (c : Cmd S) (same : c.handler = h) : Yields true h (some c) := congrArg some same

theorem yields_none {h : Handler} : Yields (S := S) false h none := rfl

theorem yields_map {α : Type} {h : Handler} (o : Option α) {f : α → Cmd S} (same : ∀ a, (f a).handler = h) :
    Yields o.isSome h (o.map f) := by
  cases o with
  | none => exact yields_none
  | some a => exact yields_some (f a) (same a)

theorem Yields.unless {accepted fine : Bool} {h : Handler} {built : Option (Cmd S)} {refused : Prop} [Decidable refused]
    (leaf : Yields accepted h built) (same : fine = true ↔ ¬ refused) :
    Yields (fine && accepted) h (if refused then none else built) := by
  by_cases refuse : refused
  · rw [if_pos refuse, Bool.eq_false_iff.2 fun fine => same.1 fine refuse]
    exact yields_none
  · rwa [if_neg refuse, same.2 refuse]

theorem Yields.need {accepted : Bool} {h : Handler} {built : Option (Cmd S)} (leaf : Yields accepted h built) (n : Nat)
    (args : List SharedByte) : Yields (n ≤ args.length && accepted) h (need n args built) :=
  leaf.unless (by simp)

/-- A key and pairs after it. -/
theorem Yields.pairs {accepted : Bool} {h : Handler} {built : Option (Cmd S)} (leaf : Yields accepted h built)
    (args : List SharedByte) : Yields (3 ≤ args.length && ((args.length - 1) % 2 = 0 && accepted)) h
      (if args.length < 3 ∨ (args.length - 1) % 2 ≠ 0 then none else built) := by
  rw [← Bool.and_assoc]
  exact leaf.unless (by
    rw [Bool.and_eq_true, decide_eq_true_eq, decide_eq_true_eq]
    omega)

theorem yields_fieldPairs (args : List SharedByte) :
    Yields (S := S) (3 ≤ args.length && (args.length - 1) % 2 = 0) (.data .cmdHset) (fieldPairs args) := by
  have leaf := Yields.pairs (yields_some (S := S) (.hSet (arg args 0) (chunksExact (args.drop 1))) rfl) args
  rwa [Bool.and_true] at leaf

theorem yields_mSet (args : List SharedByte) : Yields (S := S) (1 ≤ args.length && args.length % 2 = 0) (.data .cmdMset)
    (if args.isEmpty ∨ args.length % 2 ≠ 0 then none else some (.mSet (chunksExact args))) := by
  have leaf : Yields (S := S) ((1 ≤ args.length && args.length % 2 = 0) && true) (.data .cmdMset)
      (if args.isEmpty ∨ args.length % 2 ≠ 0 then none else some (.mSet (chunksExact args))) :=
    (yields_some _ rfl).unless (by
      rw [Bool.and_eq_true, decide_eq_true_eq, decide_eq_true_eq, List.isEmpty_iff_length_eq_zero]
      omega)
  rwa [Bool.and_true] at leaf

theorem isSome_mapM {α β : Type} (f : α → Option β) (l : List α) : (l.mapM f).isSome = l.all fun a => (f a).isSome := by
  induction l with
  | nil => rfl
  | cons a l ih =>
    rw [List.mapM_cons, List.all_cons, ← ih]
    cases f a with
    | none => rfl
    | some b => cases l.mapM f <;> rfl

theorem yields_scoredPairs (args : List SharedByte) :
    Yields (accepts argF64 (.data .cmdZadd) args) (.data .cmdZadd) (dispatch.scoredPairs argF64 args) := by
  refine Yields.pairs ?_ args
  have same : (fun pair : SharedByte × SharedByte => (argF64 pair.1).isSome) =
      fun pair => ((argF64 pair.1).map fun score => (score, pair.2)).isSome := by
    funext pair
    rw [Option.isSome_map]
  rw [same, ← isSome_mapM]
  exact yields_map _ fun _ => rfl

theorem yields_range (args : List SharedByte) :
    Yields (S := S) (accepts argF64 (.data .cmdZrange) args) (.data .cmdZrange) (need 3 args (dispatch.range args)) := by
  refine Yields.need ?_ 3 args
  unfold dispatch.range
  cases argI64 (arg args 1) with
  | none => exact yields_none
  | some start => cases argI64 (arg args 2) with
    | none => exact yields_none
    | some stop => exact yields_some _ rfl

/-- A word that resembles the name of a handler leads to the leaf of that handler. -/
theorem yields_of_resembles {arm : String × Handler} (known : arm ∈ handlers) {cmd : SharedByte}
    (resembles : Resembles cmd arm) (args : List SharedByte) :
    Yields (accepts argF64 arm.2 args) (countsAs arm.2) (dispatch argF64 cmd args) := by
  rcases arm with ⟨name, h⟩
  rcases resembles with ⟨length, here⟩
  revert known length here
  unfold dispatch
  generalize lower cmd = letter
  generalize cmd.length = n
  intro known length here
  cases h
  case' data f => cases f
  case' dataOnly f => cases f
  case' async f => cases f
  all_goals
    -- the name of the handler fixes the length, and length and letters the leaf
    simp [handlers] at known
    simp [known, ascii] at length
    simp only [letters, List.Forall] at here
    simp only [length, here, Nat.reduceLT, if_false, if_true]
    first
    | exact yields_some _ rfl
    | exact (yields_some _ rfl).need _ args
    | refine Yields.need (yields_map _ ?_) _ args; exact fun _ => rfl
    | exact yields_fieldPairs args
    | exact yields_mSet args
    | exact yields_scoredPairs argF64 args
    | exact yields_range argF64 args

theorem found {cmd : SharedByte} {result : Option (Cmd S)} (name : String) (h : Handler)
    (length : cmd.length = (ascii name).length) (here : (letters h).Forall fun p => lower cmd p.1 = p.2)
    (known : (name, h) ∈ handlers := by decide) : result.isSome → ∃ arm ∈ handlers, Resembles cmd arm :=
  fun _ => ⟨(name, h), known, length, here⟩

/-- Every leaf is that of a handler. -/
theorem exists_resembles {cmd : SharedByte} {args : List SharedByte} :
    (dispatch argF64 cmd args).isSome → ∃ arm ∈ handlers, Resembles cmd arm := by
  fun_cases dispatch argF64 cmd args with
  | case2 _ at0 length => exact found "DEL" (.data .cmdDel) length at0
  | case3 _ at0 length => exact found "DECR" (.data .cmdDecr) length at0
  | case4 _ at0 length at1 => exact found "DBSIZE" (.dataOnly .cmdDbsize) length ⟨at0, at1⟩
  | case5 _ at0 length at1 => exact found "DECRBY" (.data .cmdDecrby) length ⟨at0, at1⟩
  | case8 _ at0 length => exact found "ECHO" .args length at0
  | case9 _ at0 length at2 => exact found "EXISTS" (.data .cmdExists) length ⟨at0, at2⟩
  | case10 _ at0 length at2 => exact found "EXPIRE" (.data .cmdExpire) length ⟨at0, at2⟩
  | case13 _ at0 length => exact found "FLUSHDB" (.dataOnly .cmdFlushdb) length at0
  | case15 _ at0 length => exact found "GET" (.data .cmdGet) length at0
  | case17 _ at0 length at1 => exact found "HSET" (.data .cmdHset) length ⟨at0, at1⟩
  | case18 _ at0 length at1 => exact found "HGET" (.data .cmdHget) length ⟨at0, at1⟩
  | case19 _ at0 length at1 => exact found "HDEL" (.data .cmdHdel) length ⟨at0, at1⟩
  | case20 _ at0 length at1 => exact found "HLEN" (.data .cmdHlen) length ⟨at0, at1⟩
  | case22 _ at0 length at1 => exact found "HKEYS" (.data .cmdHkeys) length ⟨at0, at1⟩
  | case23 _ at0 length at1 => exact found "HVALS" (.data .cmdHvals) length ⟨at0, at1⟩
  | case24 _ at0 length at1 at2 => exact found "HMGET" (.data .cmdHmget) length ⟨at0, at1, at2⟩
  | case25 _ at0 length at1 at2 => exact found "HMSET" (.data .cmdHmset) length ⟨at0, at1, at2⟩
  | case28 _ at0 length at1 => exact found "HGETALL" (.data .cmdHgetall) length ⟨at0, at1⟩
  | case29 _ at0 length at1 => exact found "HEXISTS" (.data .cmdHexists) length ⟨at0, at1⟩
  | case30 _ at0 length at1 => exact found "HINCRBY" (.data .cmdHincrby) length ⟨at0, at1⟩
  | case33 _ at0 length => exact found "INCR" (.data .cmdIncr) length at0
  | case34 _ at0 length => exact found "INCRBY" (.data .cmdIncrby) length at0
  | case36 _ at0 length => exact found "KEYS" (.async .cmdKeys) length at0
  | case38 _ at0 length at1 => exact found "MGET" (.data .cmdMget) length ⟨at0, at1⟩
  | case40 _ at0 length at1 _ => exact found "MSET" (.data .cmdMset) length ⟨at0, at1⟩
  | case43 _ at0 length at1 => exact found "PING" .ping length ⟨at0, at1⟩
  | case44 _ at0 length at1 => exact found "PTTL" (.data .cmdPttl) length ⟨at0, at1⟩
  | case46 _ at0 length at1 at2 => exact found "PERSIST" (.data .cmdPersist) length ⟨at0, at1, at2⟩
  | case47 _ at0 length at1 at2 => exact found "PEXPIRE" (.data .cmdPexpire) length ⟨at0, at1, at2⟩
  | case49 _ at0 length at1 => exact found "PUBLISH" .publish length ⟨at0, at1⟩
  | case52 _ at0 length => exact found "QUIT" .quit length at0
  | case54 _ at0 length => exact found "SET" (.data .cmdSet) length at0
  | case55 _ at0 length at1 => exact found "SADD" (.data .cmdSadd) length ⟨at0, at1⟩
  | case56 _ at0 length at1 => exact found "SREM" (.data .cmdSrem) length ⟨at0, at1⟩
  | case57 _ at0 length at1 => exact found "SPOP" (.data .cmdSpop) length ⟨at0, at1⟩
  | case59 _ at0 length at1 => exact found "SCARD" (.data .cmdScard) length ⟨at0, at1⟩
  | case60 _ at0 length at1 at3 => exact found "SETEX" (.data .cmdSetex) length ⟨at0, at1, at3⟩
  | case61 _ at0 length at1 at3 => exact found "SETNX" (.data .cmdSetnx) length ⟨at0, at1, at3⟩
  | case64 _ at0 length => exact found "SELECT" .static length at0
  | case65 _ at0 length => exact found "SMEMBERS" (.data .cmdSmembers) length at0
  | case66 _ at0 length at1 => exact found "SISMEMBER" (.data .cmdSismember) length ⟨at0, at1⟩
  | case67 _ at0 length at1 => exact found "SUBSCRIBE" .subscribe length ⟨at0, at1⟩
  | case70 _ at0 length => exact found "TTL" (.data .cmdTtl) length at0
  | case71 _ at0 length => exact found "TYPE" (.data .cmdType) length at0
  | case73 _ at0 length => exact found "UNLINK" (.async .cmdUnlink) length at0
  | case74 _ at0 length => exact found "UNSUBSCRIBE" .unsubscribe length at0
  | case76 _ at0 length at1 => exact found "ZADD" (.data .cmdZadd) length ⟨at0, at1⟩
  | case77 _ at0 length at1 => exact found "ZREM" (.data .cmdZrem) length ⟨at0, at1⟩
  | case79 _ at0 length => exact found "ZCARD" (.data .cmdZcard) length at0
  | case80 _ at0 length at1 => exact found "ZRANGE" (.data .cmdZrange) length ⟨at0, at1⟩
  | case81 _ at0 length at1 => exact found "ZSCORE" (.data .cmdZscore) length ⟨at0, at1⟩
  | case83 _ at0 length => exact found "ZINCRBY" (.data .cmdZincrby) length at0
  | _ => exact nofun

/-! ## The trie and the table -/

theorem getHandler_name : ∀ arm ∈ handlers, getHandler (ascii arm.1) = some arm.2 := by decide +kernel

theorem mem_handlers {cmd : SharedByte} {h : Handler} (found : getHandler cmd = some h) :
    ∃ name, cmd = ascii name ∧ (name, h) ∈ handlers := by
  obtain ⟨arm, here, rfl⟩ := Option.map_eq_some_iff.1 found
  have same : decide (ascii arm.1 = cmd) = true :=
    List.find?_some (p := fun arm : String × Handler => decide (ascii arm.1 = cmd)) here
  exact ⟨arm.1, (of_decide_eq_true same).symm, List.mem_of_find?_eq_some here⟩

/-- Names of one command that resemble each other are the same. -/
theorem eq_of_resembles : ∀ arm ∈ handlers, ∀ other ∈ handlers, countsAs other.2 = countsAs arm.2 →
    Resembles (ascii other.1) arm → other = arm := by
  unfold Resembles
  decide +kernel

theorem resembles_toUppercase {cmd : SharedByte} {arm : String × Handler} (resembles : Resembles cmd arm) :
    Resembles (toUppercase cmd) arm := by
  have letters' : lower (toUppercase cmd) = lower cmd := funext (lower_toUppercase cmd)
  rw [Resembles, letters', toUppercase, List.length_map]
  exact resembles

/-- The trie agrees with the table on a word if and only if every name that the word resembles is the word, or the
arguments are none of that command. -/
theorem dispatch_agrees_iff (cmd : SharedByte) (args : List SharedByte) :
    (∀ c, dispatch argF64 cmd args = some c → (getHandler (toUppercase cmd)).map countsAs = some c.handler) ↔
      ∀ arm ∈ handlers, Resembles cmd arm → accepts argF64 arm.2 args → toUppercase cmd = ascii arm.1 := by
  constructor
  · intro agrees arm known resembles accepted
    have leaf := yields_of_resembles argF64 known resembles args
    rw [Yields, if_pos accepted] at leaf
    obtain ⟨c, taken, command⟩ := Option.map_eq_some_iff.1 leaf
    obtain ⟨h, found, same⟩ := Option.map_eq_some_iff.1 (agrees c taken)
    obtain ⟨name, upper, known'⟩ := mem_handlers found
    have resembles' := resembles_toUppercase resembles
    rw [upper] at resembles'
    rw [upper, ← eq_of_resembles arm known (name, h) known' (same.trans command) resembles']
  · intro exact' c taken
    obtain ⟨arm, known, resembles⟩ := exists_resembles argF64 (by rw [taken]; rfl)
    have leaf := yields_of_resembles argF64 known resembles args
    rw [Yields, taken] at leaf
    by_cases accepted : accepts argF64 arm.2 args
    · rw [if_pos accepted] at leaf
      rw [exact' arm known resembles accepted, getHandler_name arm known]
      exact leaf.symm
    · rw [if_neg accepted] at leaf
      cases leaf

end Dispatch

/-- `DUMP k` is taken for `DECR k`, and is no command of the server. -/
theorem dispatch_disagrees : ¬ ∀ (S : Type) (argF64 : SharedByte → Option S) cmd args c,
    dispatch argF64 cmd args = some c → (getHandler (toUppercase cmd)).map countsAs = some c.handler := by
  intro agrees
  have taken : dispatch (fun _ => (none : Option Nat)) (ascii "DUMP") [ascii "k"] = some (.decr (ascii "k")) := rfl
  have unknown : getHandler (toUppercase (ascii "DUMP")) = none := by decide +kernel
  have known := agrees _ _ _ _ _ taken
  rw [unknown] at known
  cases known

end Cmd

end Radixox.Server
