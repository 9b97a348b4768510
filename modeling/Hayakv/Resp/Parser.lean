import Hayakv.Lib.GoText
import Mathlib.Data.List.Basic

/-!
# The RESP stream parser and the multi-bulk encoder

`internal/proto/resp2/parser/parser.go` (`parse0` and its helpers) and
`MultiBulkReply.ToBytes` of `protocol/reply.go`. A stream is the bytes still to
be read; the channel of payloads is a list. `parse0` runs on fuel: each round
reads at least one byte, so the length of the stream is enough.

The parser reads back what the encoder writes (`parse0_toBytes`), whatever
follows it in the stream, and so it does a whole log (`parseStream_log`).
-/

namespace Hayakv.Resp

open List

abbrev CmdLine := List Bytes

inductive Reply
  | status (text : Bytes)
  | err (text : Bytes)
  | int (n : Int)
  | bulk (arg : Bytes)
  | nullBulk
  | emptyMultiBulk
  | multiBulk (args : CmdLine)
deriving DecidableEq, Repr

inductive ParseErr
  | eof
  | unexpectedEof
  | other (msg : Bytes)
deriving DecidableEq, Repr

inductive Payload
  | data (reply : Reply)
  | error (err : ParseErr)
deriving DecidableEq, Repr

def protocolError (msg : Bytes) : Payload := .error (.other ("protocol error: " ++ msg))

def crlf : Bytes := [13, 10]

def bulk (arg : Bytes) : Bytes := 36 :: itoa arg.length ++ crlf ++ arg ++ crlf

def toBytes (args : CmdLine) : Bytes := 42 :: itoa args.length ++ crlf ++ args.flatMap bulk

/-- `reader.ReadBytes('\n')`: up to and with the first line feed; `none` is `io.EOF`. -/
def readLine : Bytes → Option (Bytes × Bytes)
  | [] => none
  | b :: s =>
    if b = 10 then some ([10], s)
    else (readLine s).map fun (line, rest) => (b :: line, rest)

/-- `io.ReadFull(reader, body)` with `len(body) = n`. -/
def readFull (n : Nat) (s : Bytes) : Except ParseErr (Bytes × Bytes) :=
  if n ≤ s.length then .ok (s.take n, s.drop n)
  else .error (if s = [] then .eof else .unexpectedEof)

/-- A line without its `\r\n`. -/
def trimLine (line : Bytes) : Bytes := line.take (line.length - 2)

/-- Whether the byte before the line feed is `\r`. -/
def endsCrlf (line : Bytes) : Bool := line.getD (line.length - 2) 0 == 13

/-- The loop of `parseArray`: `n` bulk strings. It stops early, with a message and the strings
so far, at an illegal header. -/
def parseArgs : Nat → Bytes → CmdLine → Except ParseErr (CmdLine × Option Bytes × Bytes)
  | 0, s, lines => .ok (lines, none, s)
  | n + 1, s, lines =>
    match readLine s with
    | none => .error .eof
    | some (line, rest) =>
      if line.length < 4 ∨ ¬endsCrlf line ∨ line.head? ≠ some 36 then
        .ok (lines, some ("illegal bulk string header " ++ line), rest)
      else
        match parseInt (trimLine line).tail with
        | none => .ok (lines, some ("illegal bulk string length " ++ line), rest)
        | some strLen =>
          if strLen < -1 then .ok (lines, some ("illegal bulk string length " ++ line), rest)
          else if strLen = -1 then parseArgs n rest (lines ++ [[]])
          else
            match readFull (strLen.toNat + 2) rest with
            | .error e => .error e
            | .ok (body, rest) => parseArgs n rest (lines ++ [body.take (body.length - 2)])

/-- `parseArray`: the payloads it sends, and the stream after it or the error it returns. -/
def parseArray (header s : Bytes) : List Payload × Except ParseErr Bytes :=
  match parseInt header.tail with
  | none => ([protocolError ("illegal array header " ++ header.tail)], .ok s)
  | some nStrs =>
    if nStrs < 0 then ([protocolError ("illegal array header " ++ header.tail)], .ok s)
    else if nStrs = 0 then ([.data .emptyMultiBulk], .ok s)
    else
      match parseArgs nStrs.toNat s [] with
      | .error e => ([], .error e)
      | .ok (lines, none, rest) => ([.data (.multiBulk lines)], .ok rest)
      | .ok (lines, some msg, rest) => ([protocolError msg, .data (.multiBulk lines)], .ok rest)

def parseBulkString (header s : Bytes) : List Payload × Except ParseErr Bytes :=
  match parseInt header.tail with
  | none => ([protocolError ("illegal bulk string header: " ++ header)], .ok s)
  | some strLen =>
    if strLen < -1 then ([protocolError ("illegal bulk string header: " ++ header)], .ok s)
    else if strLen = -1 then ([.data .nullBulk], .ok s)
    else
      match readFull (strLen.toNat + 2) s with
      | .error e => ([], .error e)
      | .ok (body, rest) => ([.data (.bulk (body.take (body.length - 2)))], .ok rest)

/-- `parseRDBEOFMark`: everything before the first occurrence of the mark. -/
def readMark (mark : Bytes) : Bytes → Bytes → Except ParseErr (Bytes × Bytes)
  | _, [] => .error .eof
  | seen, b :: s =>
    let seen := seen ++ [b]
    if mark.isSuffixOf seen then .ok (seen.take (seen.length - mark.length), s)
    else readMark mark seen s

/-- `parseRDBBulkString`: the RDB file after `+FULLRESYNC`, in either framing. -/
def parseRDBBulkString (s : Bytes) : List Payload × Except ParseErr Bytes :=
  match readLine s with
  | none => ([], .error (.other "failed to read bytes"))
  | some (line, rest) =>
    let header := if crlf.isSuffixOf line then trimLine line else line
    if header = [] then ([], .error (.other "empty header"))
    else if (str "$EOF:").isPrefixOf header then
      let mark := header.drop 5
      if mark = [] then ([], .error (.other "empty EOF mark"))
      else
        match readMark mark [] rest with
        | .error e => ([], .error e)
        | .ok (body, rest) => ([.data (.bulk body)], .ok rest)
    else
      match parseInt header.tail with
      | none => ([], .error (.other ("illegal bulk header: " ++ header)))
      | some strLen =>
        if strLen ≤ 0 then ([], .error (.other ("illegal bulk header: " ++ header)))
        else
          match readFull strLen.toNat rest with
          | .error e => ([], .error e)
          | .ok (body, rest) => ([.data (.bulk body)], .ok rest)

/-- What one line of `parse0` sends, and the stream after it or the error that ends it. -/
def parseLine (line s : Bytes) : List Payload × Except ParseErr Bytes :=
  match line with
  | 43 :: content =>
    if (str "FULLRESYNC").isPrefixOf content then
      let (sent, next) := parseRDBBulkString s
      (.data (.status content) :: sent, next)
    else ([.data (.status content)], .ok s)
  | 45 :: content => ([.data (.err content)], .ok s)
  | 58 :: content =>
    match parseInt content with
    | none => ([protocolError ("illegal number " ++ content)], .ok s)
    | some n => ([.data (.int n)], .ok s)
  | 36 :: _ => parseBulkString line s
  | 42 :: _ => parseArray line s
  | _ => ([.data (.multiBulk (line.splitOn 32))], .ok s)

/-- `parse0`: lines until the stream ends or breaks. Lines too short or without `\r` are
skipped. -/
def parse0 : Nat → Bytes → List Payload
  | 0, _ => []
  | fuel + 1, s =>
    match readLine s with
    | none => [.error .eof]
    | some (line, rest) =>
      if line.length ≤ 2 ∨ ¬endsCrlf line then parse0 fuel rest
      else
        match parseLine (trimLine line) rest with
        | (sent, .ok rest) => sent ++ parse0 fuel rest
        | (sent, .error e) => sent ++ [.error e]

def parseStream (s : Bytes) : List Payload := parse0 (s.length + 1) s

/-! ## Reading back -/

/-- The lengths of a command line are Go `int`s. -/
def Fits (args : CmdLine) : Prop := args.length < 2 ^ 63 ∧ ∀ arg ∈ args, arg.length < 2 ^ 63

theorem readLine_append {l : Bytes} (h : (10 : UInt8) ∉ l) (rest : Bytes) :
    readLine (l ++ 10 :: rest) = some (l ++ [10], rest) := by
  induction l with
  | nil => simp [readLine]
  | cons b l ih =>
    rw [mem_cons, not_or] at h
    rw [cons_append, readLine, if_neg (Ne.symm h.1), ih h.2]
    rfl

theorem ten_notMem_itoa (n : Int) : (10 : UInt8) ∉ itoa n := fun h => by
  rcases mem_itoa h with h | h <;> exact absurd h (by decide)

theorem readLine_header (mark : UInt8) (hmark : mark ≠ 10) (n : Int) (rest : Bytes) :
    readLine (mark :: itoa n ++ crlf ++ rest) = some (mark :: itoa n ++ crlf, rest) := by
  have h : (10 : UInt8) ∉ mark :: itoa n ++ [13] := by
    simp only [cons_append, mem_cons, mem_append, not_mem_nil, or_false, not_or]
    exact ⟨Ne.symm hmark, ten_notMem_itoa n, by decide⟩
  have := readLine_append h rest
  simpa [crlf] using this

theorem length_header (mark : UInt8) (n : Int) : 4 ≤ (mark :: itoa n ++ crlf).length := by
  have := length_pos_iff.2 (itoa_ne_nil n)
  simp only [crlf, cons_append, length_cons, length_append, length_nil]
  omega

theorem trimLine_header (mark : UInt8) (n : Int) : trimLine (mark :: itoa n ++ crlf) = mark :: itoa n := by
  rw [trimLine, crlf, length_append]
  simp

theorem endsCrlf_header (mark : UInt8) (n : Int) : endsCrlf (mark :: itoa n ++ crlf) = true := by
  rw [endsCrlf, crlf]
  simp [getD_eq_getElem?_getD]

theorem parseArgs_bulk (n : Nat) {arg : Bytes} (h : arg.length < 2 ^ 63) (rest : Bytes)
    (lines : CmdLine) : parseArgs (n + 1) (bulk arg ++ rest) lines = parseArgs n rest (lines ++ [arg]) := by
  have hline := readLine_header 36 (by decide) arg.length (arg ++ crlf ++ rest)
  have h4 := length_header 36 (arg.length : Int)
  rw [parseArgs, bulk, append_assoc (_ ++ arg), append_assoc (_ ++ crlf), ← append_assoc arg, hline]
  dsimp only
  have hok : ¬((36 :: itoa arg.length ++ crlf).length < 4 ∨ ¬endsCrlf (36 :: itoa arg.length ++ crlf) ∨
      (36 :: itoa arg.length ++ crlf).head? ≠ some 36) := by
    rintro (hlt | hend | hhead)
    · omega
    · exact hend (endsCrlf_header 36 arg.length)
    · exact hhead rfl
  rw [if_neg hok, trimLine_header, tail_cons, parseInt_itoa (by omega) (by exact_mod_cast h)]
  dsimp only
  have hfull : readFull (arg.length + 2) (arg ++ crlf ++ rest) = .ok (arg ++ crlf, rest) := by
    have hlen : arg.length + 2 = (arg ++ crlf).length := by simp [crlf]
    rw [readFull, hlen, if_pos (by simp), take_left, drop_left]
  rw [if_neg (by omega), if_neg (by omega), Int.toNat_natCast, hfull]
  simp [crlf]

theorem parseArgs_bulks {args : CmdLine} (h : ∀ arg ∈ args, arg.length < 2 ^ 63) (rest : Bytes)
    (lines : CmdLine) : parseArgs args.length (args.flatMap bulk ++ rest) lines =
      .ok (lines ++ args, none, rest) := by
  induction args generalizing lines with
  | nil => simp [parseArgs]
  | cons arg args ih =>
    rw [flatMap_cons, append_assoc, length_cons,
      parseArgs_bulk _ (h arg mem_cons_self), ih fun a ha => h a (mem_cons_of_mem _ ha)]
    simp

def Reply.ofArgs (args : CmdLine) : Reply := if args = [] then .emptyMultiBulk else .multiBulk args

/-- The parser reads an encoded command line, and goes on after it. -/
theorem parse0_toBytes (fuel : Nat) {args : CmdLine} (h : Fits args) (rest : Bytes) :
    parse0 (fuel + 1) (toBytes args ++ rest) = .data (.ofArgs args) :: parse0 fuel rest := by
  have hline := readLine_header 42 (by decide) args.length (args.flatMap bulk ++ rest)
  have h4 := length_header 42 (args.length : Int)
  rw [parse0, toBytes, append_assoc, hline]
  dsimp only
  have hok : ¬((42 :: itoa args.length ++ crlf).length ≤ 2 ∨ ¬endsCrlf (42 :: itoa args.length ++ crlf)) := by
    rintro (hle | hend)
    · omega
    · exact hend (endsCrlf_header 42 args.length)
  rw [if_neg hok, trimLine_header, parseLine, parseArray, tail_cons, parseInt_itoa (by omega) (by exact_mod_cast h.1)]
  dsimp only
  rw [if_neg (by omega)]
  by_cases hnil : args = []
  · subst hnil
    simp [Reply.ofArgs]
  · have hpos : (args.length : Int) ≠ 0 := by simpa using hnil
    rw [if_neg hpos, Int.toNat_natCast, parseArgs_bulks h.2]
    simp [Reply.ofArgs, hnil]

theorem parse0_log (fuel : Nat) {log : List CmdLine} (h : ∀ args ∈ log, Fits args) (rest : Bytes) :
    parse0 (log.length + fuel) (log.flatMap toBytes ++ rest) =
      log.map (fun args => .data (.ofArgs args)) ++ parse0 fuel rest := by
  induction log with
  | nil => simp
  | cons args log ih =>
    rw [flatMap_cons, append_assoc, length_cons, Nat.add_right_comm,
      parse0_toBytes _ (h args mem_cons_self), ih fun a ha => h a (mem_cons_of_mem _ ha)]
    rfl

theorem parseStream_log {log : List CmdLine} (h : ∀ args ∈ log, Fits args) : parseStream (log.flatMap toBytes) =
      log.map (fun args => .data (.ofArgs args)) ++ [.error .eof] := by
  have hlen : log.length ≤ (log.flatMap toBytes).length := by
    clear h
    induction log with
    | nil => simp
    | cons args log ih =>
      rw [flatMap_cons, length_append, length_cons, toBytes]
      simp only [cons_append, length_cons]
      omega
  obtain ⟨k, hk⟩ := Nat.exists_eq_add_of_le hlen
  have := parse0_log (k + 1) h []
  rw [append_nil] at this
  rw [parseStream, hk, Nat.add_assoc, this]
  rfl

end Hayakv.Resp
