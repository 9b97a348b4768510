import Hayakv.Resp.Parser

/-!
# The blocking request parser

`internal/proto/resp2/parser/parserv2.go`: `ParseV2` reads one command from a
reader, byte by byte up to each line's end and then the argument as a block. A
reader is the bytes still to come; an argument is `none` where the code makes
it `nil`. `make` panics where the length it is asked for is no Go `int`.

A `Request` is a command line that the encoder can write: it has a word, and
its encoding is a Go byte slice. Called as many times as there are requests,
`ParseV2` reads them all and leaves nothing (`parseTimes_log`).
-/

namespace Hayakv.Resp

open List

theorem length_bulk (arg : Bytes) : arg.length + 6 ≤ (bulk arg).length := by
  have := length_pos_iff.2 (itoa_ne_nil arg.length)
  simp only [bulk, crlf, cons_append, length_cons, length_append, length_nil]
  omega

theorem length_le_flatMap_bulk (args : CmdLine) : args.length ≤ (args.flatMap bulk).length := by
  induction args with
  | nil => simp
  | cons arg args ih =>
    have := length_bulk arg
    rw [flatMap_cons, length_append, length_cons]
    omega

theorem length_bulk_le {args : CmdLine} {arg : Bytes} (h : arg ∈ args) :
    (bulk arg).length ≤ (args.flatMap bulk).length :=
  (sublist_flatten_of_mem (mem_map_of_mem h)).length_le

/-- A command line that can be sent: it has a word, and its encoding is a Go byte slice. -/
structure Request where
  args : CmdLine
  ne : args ≠ []
  fits : (toBytes args).length < 2 ^ 63

namespace Request

variable (r : Request)

def encode : Bytes := toBytes r.args

theorem length_encode : r.encode.length = (itoa r.args.length).length + 3 + (r.args.flatMap bulk).length := by
  simp only [encode, toBytes, crlf, cons_append, length_cons, length_append, length_nil]
  omega

theorem length_bulks_lt : (r.args.flatMap bulk).length + 3 < 2 ^ 63 := by
  have h := r.length_encode
  have := r.fits
  rw [encode] at h
  omega

theorem length_args_lt : r.args.length < 2 ^ 63 := by
  have := length_le_flatMap_bulk r.args
  have := r.length_bulks_lt
  omega

/-- An argument and its line end fit a Go slice too. -/
theorem length_arg_lt {arg : Bytes} (h : arg ∈ r.args) : arg.length + 2 < 2 ^ 63 := by
  have := length_bulk_le h
  have := length_bulk arg
  have := r.length_bulks_lt
  omega

theorem fits_args : Fits r.args := ⟨r.length_args_lt, fun arg h => by have := r.length_arg_lt h; omega⟩

end Request

namespace V2

/-- What `ParseV2` fails with. -/
inductive Err
  | eof
  | unexpectedEof
  /-- The error of `strconv.Atoi` about a line. -/
  | atoi (line : Bytes)
  | other (msg : Bytes)
  | panic
deriving DecidableEq, Repr

/-- `io.ReadFull` of one byte. -/
def readByte : Bytes → Except Err (UInt8 × Bytes)
  | [] => .error .eof
  | b :: s => .ok (b, s)

def readFull (n : Nat) (s : Bytes) : Except Err (Bytes × Bytes) :=
  if n ≤ s.length then .ok (s.take n, s.drop n)
  else .error (if s = [] then .eof else .unexpectedEof)

/-- The byte after a `\r`. -/
def lineFeed (line : Bytes) : Bytes → Except Err (Bytes × Bytes)
  | [] => .error (.other "unexpected EOF after \\r")
  | b :: s => if b ≠ 10 then .error (.other "expected \\n after \\r") else .ok (line, s)

/-- `readLine`: the bytes before the next `\r`, which a `\n` has to follow. -/
def readLine : Bytes → Bytes → Except Err (Bytes × Bytes)
  | [], _ => .error .eof
  | b :: s, line => if b = 13 then lineFeed line s else readLine s (line ++ [b])

def readInteger (s : Bytes) : Except Err (Int × Bytes) := do
  let (line, s) ← readLine s []
  match parseInt line with
  | none => .error (.atoi line)
  | some n => .ok (n, s)

def parseArg (s : Bytes) : Except Err (Option Bytes × Bytes) := do
  let (b, s) ← readByte s
  if b ≠ 36 then .error (.other "unsupported RESP type")
  else
    let (strLen, s) ← readInteger s
    if strLen < 0 then .ok (none, s)
    -- data := make([]byte, strLen+2)
    else if 2 ^ 63 ≤ strLen + 2 then .error .panic
    else
      let (data, s) ← readFull (strLen.toNat + 2) s
      .ok (some (data.take strLen.toNat), s)

def parseArgs : Nat → Bytes → List (Option Bytes) → Except Err (List (Option Bytes) × Bytes)
  | 0, s, result => .ok (result, s)
  | n + 1, s, result => do
    let (arg, s) ← parseArg s
    parseArgs n s (result ++ [arg])

/-- `ParseV2`; a negative count gives no command. -/
def parseV2 (s : Bytes) : Except Err (List (Option Bytes) × Bytes) := do
  let (b, s) ← readByte s
  if b ≠ 42 then
    -- try text protocol
    let (line, s) ← readLine s []
    .ok (((b :: line).splitOn 32).map some, s)
  else
    let (count, s) ← readInteger s
    if count < 0 then .ok ([], s) else parseArgs count.toNat s []

/-- `ParseV2` called `n` times on one reader. -/
def parseTimes : Nat → Bytes → Except Err (List (List (Option Bytes)) × Bytes)
  | 0, s => .ok ([], s)
  | n + 1, s => do
    let (cmd, s) ← parseV2 s
    let (cmds, s) ← parseTimes n s
    .ok (cmd :: cmds, s)

/-! ## Reading back -/

@[simp] theorem ok_bind {α β : Type} (a : α) (f : α → Except Err β) : (Except.ok a >>= f) = f a := rfl

theorem readLine_append {l : Bytes} (h : (13 : UInt8) ∉ l) (rest line : Bytes) :
    readLine (l ++ crlf ++ rest) line = .ok (line ++ l, rest) := by
  induction l generalizing line with
  | nil => simp [readLine, lineFeed, crlf]
  | cons b l ih =>
    rw [mem_cons, not_or] at h
    rw [cons_append, cons_append, readLine, if_neg (Ne.symm h.1), ih h.2]
    simp

theorem thirteen_notMem_itoa (n : Int) : (13 : UInt8) ∉ itoa n := fun h => by
  rcases mem_itoa h with h | h <;> exact absurd h (by decide)

theorem readInteger_itoa {n : Nat} (h : n < 2 ^ 63) (rest : Bytes) :
    readInteger (itoa n ++ crlf ++ rest) = .ok ((n : Int), rest) := by
  have hn : parseInt (itoa n) = some (n : Int) := parseInt_itoa (by omega) (by exact_mod_cast h)
  rw [readInteger, readLine_append (thirteen_notMem_itoa n), ok_bind]
  simp only [nil_append, hn]

theorem parseArg_bulk {arg : Bytes} (h : arg.length + 2 < 2 ^ 63) (rest : Bytes) :
    parseArg (bulk arg ++ rest) = .ok (some arg, rest) := by
  have hfull : readFull (arg.length + 2) (arg ++ crlf ++ rest) = .ok (arg ++ crlf, rest) := by
    have hlen : arg.length + 2 = (arg ++ crlf).length := by simp [crlf]
    rw [readFull, hlen, if_pos (by simp), take_left, drop_left]
  have hline : bulk arg ++ rest = 36 :: (itoa arg.length ++ crlf ++ (arg ++ crlf ++ rest)) := by
    simp [bulk]
  rw [parseArg, hline, readByte, ok_bind]
  dsimp only
  rw [if_neg (by simp), readInteger_itoa (by omega), ok_bind]
  rw [if_neg (by omega), if_neg (by omega), Int.toNat_natCast, hfull, ok_bind]
  simp

theorem parseArgs_bulks {args : CmdLine} (h : ∀ arg ∈ args, arg.length + 2 < 2 ^ 63) (rest : Bytes)
    (result : List (Option Bytes)) : parseArgs args.length (args.flatMap bulk ++ rest) result =
      .ok (result ++ args.map some, rest) := by
  induction args generalizing result with
  | nil => simp [parseArgs]
  | cons arg args ih =>
    rw [flatMap_cons, append_assoc, length_cons, parseArgs, parseArg_bulk (h arg mem_cons_self), ok_bind]
    dsimp only
    rw [ih fun a ha => h a (mem_cons_of_mem _ ha)]
    simp

theorem parseV2_encode (r : Request) (rest : Bytes) : parseV2 (r.encode ++ rest) = .ok (r.args.map some, rest) := by
  have hline : r.encode ++ rest = 42 :: (itoa r.args.length ++ crlf ++ (r.args.flatMap bulk ++ rest)) := by
    simp [Request.encode, toBytes]
  rw [parseV2, hline, readByte, ok_bind]
  dsimp only
  rw [if_neg (by simp), readInteger_itoa r.length_args_lt, ok_bind]
  rw [if_neg (by omega), Int.toNat_natCast, parseArgs_bulks fun _ h => r.length_arg_lt h]
  simp

theorem parseTimes_log (log : List Request) (rest : Bytes) :
    parseTimes log.length (log.flatMap Request.encode ++ rest) = .ok (log.map fun r => r.args.map some, rest) := by
  induction log with
  | nil => rfl
  | cons r log ih =>
    rw [flatMap_cons, append_assoc, length_cons, parseTimes, parseV2_encode, ok_bind]
    dsimp only
    rw [ih]
    rfl

end V2

end Hayakv.Resp
